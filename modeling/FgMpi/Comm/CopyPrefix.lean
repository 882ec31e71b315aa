import FgMpi.Comm.CopyTables

/-! What a communicator made of the first ranks of another would need, and what it gets. -/

namespace FgMpi.Comm.CopyPrefix
open Machine.Checked
open Comm.NestedMaps Comm.SharedVars Comm.CopyTables
open Comm.Communicator (Key colocatedOffset)
open Coll.Hierarchy Coll.NestedTables
open Function (update update_eq_self update_of_ne update_self)

/-- The shared variables of a committed communicator in the OS process `p`. -/
structure Committed (place : Placement) (p : Nat) (ranks : List Proc) (co : CoShared) : Prop where
  rtwMap : co.rtwMap = ranks.map some
  ptn : co.ptn = some (nestedMaps place p ranks).ptn
  externalSize : co.externalSize = (nestedMaps place p ranks).internode.length
  localSize : co.localSize = (nestedMaps place p ranks).intranode.length
  fgLocalSize : co.fgLocalSize = (nestedMaps place p ranks).intraOsproc.length

/-- The communicator of a process in the OS process `p` has the tables, the sizes and the maps that
`MPIU_Nested_maps_for_communicators` computes for `ranks`. -/
structure Right (place : Placement) (p : Nat) (ranks : List Proc) (c : NewComm) : Prop where
  ptn : ∀ r < ranks.length, (c.shared.ptn.getD [])[r]? = (nestedMaps place p ranks).ptn[r]?
  externalSize : c.shared.externalSize = (nestedMaps place p ranks).internode.length
  localSize : c.shared.localSize = (nestedMaps place p ranks).intranode.length
  fgLocalSize : c.shared.fgLocalSize = (nestedMaps place p ranks).intraOsproc.length
  nodeComm : ∀ rtwMap ∈ c.nested.nodeComm, rtwMap = (nestedMaps place p ranks).intranode.map some
  nodeRootsComm : ∀ rtwMap ∈ c.nested.nodeRootsComm,
    rtwMap = (nestedMaps place p ranks).internode.map some
  osprocColocatedComm : ∀ rtwMap ∈ c.nested.osprocColocatedComm,
    rtwMap = (nestedMaps place p ranks).intraOsproc.map some

section Sizes
variable (place : Placement) {ranks : List Proc} {d : Proc}

theorem length_roots_le (ranks post : List Proc) :
    (roots place ranks).length ≤ (roots place (ranks ++ post)).length := by
  induction post using List.reverseRecOn with
  | nil => rw [List.append_nil]
  | append_singleton post w ih =>
    obtain ⟨t, happend, -⟩ := roots_append place (ranks ++ post) w
    have hlen : (roots place (ranks ++ post)).length ≤ (roots place (ranks ++ post ++ [w])).length := by
      rw [happend, List.length_append]
      omega
    rw [← List.append_assoc]
    exact ih.trans hlen

theorem length_leaders_le (ranks post : List Proc) (node : Nat) :
    (leaders place ranks node).length ≤ (leaders place (ranks ++ post) node).length := by
  induction post using List.reverseRecOn with
  | nil => rw [List.append_nil]
  | append_singleton post w ih =>
    obtain ⟨t, happend, -⟩ := leaders_append' place (ranks ++ post) w node
    have hlen : (leaders place (ranks ++ post) node).length ≤
        (leaders place (ranks ++ post ++ [w]) node).length := by
      rw [happend, List.length_append]
      omega
    rw [← List.append_assoc]
    exact ih.trans hlen

theorem length_roots_lt (post : List Proc) (hnode : nodeOf place d ∉ ranks.map (nodeOf place)) :
    (roots place ranks).length < (roots place (ranks ++ d :: post)).length := by
  have hone : roots place (ranks ++ [d]) = roots place ranks ++ [d] := by
    show firsts _ _ = _
    rw [firsts_append, addFirst]
    exact if_neg (mt mem_roots_keys.mp hnode)
  have hle := length_roots_le place (ranks ++ [d]) post
  rw [hone, List.length_append, List.append_assoc, List.singleton_append, List.length_singleton] at hle
  omega

theorem length_leaders_lt (post : List Proc) (hpid : place.pid d ∉ ranks.map place.pid) :
    (leaders place ranks (nodeOf place d)).length <
      (leaders place (ranks ++ d :: post) (nodeOf place d)).length := by
  have hnew : place.pid d ∉ (leaders place ranks (nodeOf place d)).map place.pid := by
    intro hmem
    exact hpid ((mem_leaders_keys rfl).mp hmem)
  have hone : leaders place (ranks ++ [d]) (nodeOf place d) =
      leaders place ranks (nodeOf place d) ++ [d] := by
    rw [leaders_append, if_pos rfl, addFirst]
    exact if_neg hnew
  have hle := length_leaders_le place (ranks ++ [d]) post (nodeOf place d)
  rw [hone, List.length_append, List.append_assoc, List.singleton_append, List.length_singleton] at hle
  omega

theorem length_colocated_lt (ranks : List Proc) (d : Proc) (post : List Proc) :
    (colocated place ranks (place.pid d)).length <
      (colocated place (ranks ++ d :: post) (place.pid d)).length := by
  unfold colocated
  rw [List.filter_append, List.filter_cons_of_pos (by simp), List.length_append, List.length_cons]
  omega

theorem exists_size_ne (hranks : ranks ≠ []) (d : Proc) (post : List Proc) : ∃ w ∈ ranks,
    (nestedMaps place (place.pid w) ranks).internode.length ≠
        (nestedMaps place (place.pid w) (ranks ++ d :: post)).internode.length ∨
      (nestedMaps place (place.pid w) ranks).intranode.length ≠
        (nestedMaps place (place.pid w) (ranks ++ d :: post)).intranode.length ∨
      (nestedMaps place (place.pid w) ranks).intraOsproc.length ≠
        (nestedMaps place (place.pid w) (ranks ++ d :: post)).intraOsproc.length := by
  have hmaps : ∀ mypid l, (nestedMaps place mypid l).internode = roots place l ∧
      (nestedMaps place mypid l).intranode = leaders place l (place.nodeId mypid) ∧
      (nestedMaps place mypid l).intraOsproc = colocated place l mypid := fun mypid l =>
    ⟨(nestedMaps_maps place mypid l).internode, (nestedMaps_maps place mypid l).intranode,
      nestedMaps_intraOsproc place mypid l⟩
  by_cases hnode : nodeOf place d ∈ ranks.map (nodeOf place)
  · by_cases hpid : place.pid d ∈ ranks.map place.pid
    · obtain ⟨w, hw, heq⟩ := List.mem_map.mp hpid
      have hlt := length_colocated_lt place ranks d post
      apply Exists.intro w
      rw [(hmaps _ ranks).2.2, (hmaps _ (ranks ++ d :: post)).2.2, heq]
      exact ⟨hw, .inr (.inr (Nat.ne_of_lt hlt))⟩
    · obtain ⟨w, hw, heq⟩ := List.mem_map.mp hnode
      have hlt := length_leaders_lt place post hpid
      have hsame : place.nodeId (place.pid w) = nodeOf place d := heq
      apply Exists.intro w
      rw [(hmaps _ ranks).2.1, (hmaps _ (ranks ++ d :: post)).2.1, hsame]
      exact ⟨hw, .inr (.inl (Nat.ne_of_lt hlt))⟩
  · obtain ⟨w, hw⟩ := List.exists_mem_of_ne_nil ranks hranks
    have hlt := length_roots_lt place post hnode
    apply Exists.intro w
    rw [(hmaps _ ranks).1, (hmaps _ (ranks ++ d :: post)).1]
    exact ⟨hw, .inl (Nat.ne_of_lt hlt)⟩

end Sizes

structure Alike (co co' : CoShared) : Prop where
  ptn : co'.ptn = co.ptn
  externalSize : co'.externalSize = co.externalSize
  localSize : co'.localSize = co.localSize
  fgLocalSize : co'.fgLocalSize = co.fgLocalSize

theorem Alike.refl (co : CoShared) : Alike co co := ⟨rfl, rfl, rfl, rfl⟩

theorem Alike.trans {a b c : CoShared} (hab : Alike a b) (hbc : Alike b c) : Alike a c :=
  ⟨hbc.ptn.trans hab.ptn, hbc.externalSize.trans hab.externalSize,
    hbc.localSize.trans hab.localSize, hbc.fgLocalSize.trans hab.fgLocalSize⟩

structure Frame (key : Key) (co : CoShared) (table table' : Table) : Prop where
  own : ∃ co', table' key = some co' ∧ Alike co co'
  others : ∀ k x, k ≠ key → table k = some x → table' k = some x
  context : ∀ leader, leader ≠ key.leader → table' ⟨key.contextId, leader⟩ = table ⟨key.contextId, leader⟩

section Frames
variable {place : Placement} {mypid rank size : Nat} {key : Key} {co co' : CoShared}
  {table table' : Table} {entry : ParentToNested} {made : Option RankArray}

variable {t : List ParentToNested}

theorem findNested_some (hptn : co.ptn = some t)
    (h : findNested place mypid size co = .ok co') : co' = co := by
  rw [findNested, hptn] at h
  exact (Except.ok.inj h).symm

theorem makeNodeComm_alike (h : makeNodeComm entry co = .ok (made, co')) : Alike co co' := by
  unfold makeNodeComm at h
  split at h
  · split at h
    · obtain ⟨rtwMap, -, hret⟩ := bind_eq_ok.mp h
      obtain ⟨-, rfl⟩ := Prod.mk.inj (Except.ok.inj hret)
      exact ⟨rfl, rfl, rfl, rfl⟩
    · obtain ⟨-, rfl⟩ := Prod.mk.inj (Except.ok.inj h)
      exact Alike.refl co
  · obtain ⟨-, rfl⟩ := Prod.mk.inj (Except.ok.inj h)
    exact ⟨rfl, rfl, rfl, rfl⟩

theorem makeNodeRootsComm_alike (h : makeNodeRootsComm entry co = .ok (made, co')) : Alike co co' := by
  unfold makeNodeRootsComm at h
  split at h
  · split at h
    · obtain ⟨rtwMap, -, hret⟩ := bind_eq_ok.mp h
      obtain ⟨-, rfl⟩ := Prod.mk.inj (Except.ok.inj hret)
      exact ⟨rfl, rfl, rfl, rfl⟩
    · obtain ⟨-, rfl⟩ := Prod.mk.inj (Except.ok.inj h)
      exact Alike.refl co
  · obtain ⟨-, rfl⟩ := Prod.mk.inj (Except.ok.inj h)
    exact ⟨rfl, rfl, rfl, rfl⟩

theorem frame_update (h : Alike co co') : Frame key co table (update table key (some co')) := by
  have hother : ∀ k, k ≠ key → update table key (some co') k = table k := by
    intro k hk
    rw [update_of_ne hk]
  apply Frame.mk ⟨co', update_self .., h⟩
  · intro k x hk hx
    exact (hother k hk).trans hx
  · intro leader hleader
    apply hother
    intro heq
    exact hleader (congrArg Key.leader heq)

theorem Frame.of_alike (hframe : Frame key co' table table') (h : Alike co co') :
    Frame key co table table' := by
  obtain ⟨co'', hget, halike⟩ := hframe.own
  exact ⟨⟨co'', hget, h.trans halike⟩, hframe.others, hframe.context⟩

theorem makeColocatedComm_frame (h : makeColocatedComm key co table = .ok (made, table')) :
    Frame key co table table' := by
  have hcontext : ∀ leader, (⟨key.contextId, leader⟩ : Key) ≠
      ⟨key.contextId + colocatedOffset, key.leader⟩ := by
    intro leader heq
    have hid : key.contextId = key.contextId + 6 := congrArg Key.contextId heq
    omega
  unfold makeColocatedComm at h
  split at h
  · split at h
    · obtain ⟨-, rfl⟩ := Prod.mk.inj (Except.ok.inj h)
      exact frame_update (Alike.refl co)
    · rename_i hnone
      obtain ⟨rtwMap, -, hret⟩ := bind_eq_ok.mp h
      obtain ⟨-, rfl⟩ := Prod.mk.inj (Except.ok.inj hret)
      have hown : Frame key co table (update table key (some { co with intraOsproc := none })) :=
        frame_update ⟨rfl, rfl, rfl, rfl⟩
      constructor
      · rw [update_of_ne (hcontext key.leader)]
        exact hown.own
      · intro k x hk hx
        have hne : k ≠ ⟨key.contextId + colocatedOffset, key.leader⟩ := by
          intro heq
          rw [heq, hnone] at hx
          exact nomatch hx
        rw [update_of_ne hne]
        exact hown.others k x hk hx
      · intro leader hleader
        rw [update_of_ne (hcontext leader)]
        exact hown.context leader hleader
  · obtain ⟨-, rfl⟩ := Prod.mk.inj (Except.ok.inj h)
    exact frame_update ⟨rfl, rfl, rfl, rfl⟩

theorem commit_frame {nested : CopyTables.Nested} (hget : table key = some co)
    (hptn : co.ptn = some t) (h : CopyTables.commit place mypid key rank size table = .ok (nested, table')) :
    Frame key co table table' := by
  rw [CopyTables.commit, hget] at h
  obtain ⟨found, hfound, hrest⟩ := bind_eq_ok.mp h
  obtain rfl : found = co := findNested_some hptn hfound
  obtain ⟨entry, -, hnested⟩ := bind_eq_ok.mp hrest
  split at hnested
  · obtain ⟨-, hret⟩ := require_bind_eq_ok.mp hnested
    obtain ⟨-, rfl⟩ := Prod.mk.inj (Except.ok.inj hret)
    exact frame_update ⟨rfl, rfl, rfl, rfl⟩
  · obtain ⟨⟨nodeComm, co₁⟩, hnode, hnested⟩ := bind_eq_ok.mp hnested
    obtain ⟨⟨nodeRootsComm, co₂⟩, hroots, hnested⟩ := bind_eq_ok.mp hnested
    obtain ⟨⟨colocated, table₁⟩, hcolocated, hret⟩ := bind_eq_ok.mp hnested
    obtain ⟨-, rfl⟩ := Prod.mk.inj (Except.ok.inj hret)
    have halike := (makeNodeComm_alike hnode).trans (makeNodeRootsComm_alike hroots)
    exact (makeColocatedComm_frame hcolocated).of_alike halike

structure Kept (parentKey : Key) (contextId : Nat) (parent : CoShared) (table : Table) : Prop where
  own : table parentKey = some parent
  copies : ∀ leader co, table ⟨contextId, leader⟩ = some co → Alike parent co

variable {parentKey : Key} {contextId : Nat} {parent : CoShared}

section
variable (hkept : Kept parentKey contextId parent table)
include hkept

theorem Kept.of_frame {leader : Proc} (hne : parentKey.contextId ≠ contextId)
    (hframe : Frame ⟨contextId, leader⟩ parent table table') : Kept parentKey contextId parent table' := by
  constructor
  · apply hframe.others
    · intro heq
      exact hne (congrArg Key.contextId heq)
    · exact hkept.own
  · intro l co' hget
    by_cases hl : l = leader
    · subst hl
      obtain ⟨co'', hget', halike⟩ := hframe.own
      rw [hget] at hget'
      rw [Option.some.inj hget']
      exact halike
    · exact hkept.copies l co' ((hframe.context l hl).symm.trans hget)

theorem copyShare_frame {leader : Proc} (h : copyShare parent size ⟨contextId, leader⟩ table = .ok table') :
    Frame ⟨contextId, leader⟩ parent table table' := by
  unfold copyShare at h
  split at h
  · rename_i stored hstored
    obtain rfl := Except.ok.inj h
    exact ⟨⟨stored, hstored, hkept.copies leader stored hstored⟩, fun _ _ _ hx => hx, fun _ _ => rfl⟩
  · obtain ⟨worldranks, -, hret⟩ := bind_eq_ok.mp h
    obtain rfl := Except.ok.inj hret
    exact frame_update ⟨rfl, rfl, rfl, rfl⟩

theorem copy_kept
    {comm : Option NewComm} (hptn : parent.ptn = some t) (hne : parentKey.contextId ≠ contextId)
    (h : copy place mypid parentKey rank size contextId table = .ok (comm, table')) :
    Kept parentKey contextId parent table' ∧ ∀ c ∈ comm, Alike parent c.shared := by
  unfold copy at h
  split at h
  · obtain ⟨rfl, rfl⟩ := Prod.mk.inj (Except.ok.inj h)
    apply And.intro hkept
    intro c hc
    exact absurd hc (Option.not_mem_none c)
  · rw [hkept.own] at h
    obtain ⟨worldranks, -, hfind⟩ := bind_eq_ok.mp h
    obtain ⟨leader, -, hcopy⟩ := bind_eq_ok.mp hfind
    obtain ⟨table₁, hshare, hmake⟩ := bind_eq_ok.mp hcopy
    obtain ⟨⟨nested, table₂⟩, hcommit, hret⟩ := bind_eq_ok.mp hmake
    have hframe := copyShare_frame hkept hshare
    obtain ⟨co₁, hget₁, halike₁⟩ := hframe.own
    have hframe' := (commit_frame hget₁ (halike₁.ptn.trans hptn) hcommit).of_alike halike₁
    have hkept' := (hkept.of_frame hne hframe).of_frame hne hframe'
    dsimp only at hret
    split at hret
    · exact nomatch hret
    · rename_i shared hshared
      obtain ⟨rfl, rfl⟩ := Prod.mk.inj (Except.ok.inj hret)
      apply And.intro hkept'
      intro c hc
      obtain rfl := Option.some.inj hc
      exact hkept'.copies leader shared hshared

end

end Frames

section All
variable {place : Placement} {ranks : List Proc} {parentKey : Key} {size contextId : Nat}
  {tables : Nat → Table}

/-- The tables of the OS processes when the context id has been agreed on: the communicator is committed
and the context id is new. -/
structure Start (place : Placement) (ranks : List Proc) (parentKey : Key) (contextId : Nat)
    (tables : Nat → Table) : Prop where
  committed : ∀ w ∈ ranks, ∃ co, tables (place.pid w) parentKey = some co ∧
    Committed place (place.pid w) ranks co
  fresh : ∀ w ∈ ranks, ∀ leader, tables (place.pid w) ⟨contextId, leader⟩ = none

structure Inherited (place : Placement) (ranks : List Proc) (parentKey : Key) (contextId : Nat)
    (tables : Nat → Table) (st : (Nat → Table) × List (Nat × Option NewComm)) : Prop where
  kept : ∀ w ∈ ranks, ∀ co, tables (place.pid w) parentKey = some co →
    Kept parentKey contextId co (st.1 (place.pid w))
  results : ∀ (r : Nat) (w : Proc) (c : NewComm) (co : CoShared), ranks[r]? = some w → (r, some c) ∈ st.2 →
    tables (place.pid w) parentKey = some co → Alike co c.shared

theorem Start.inherited (h : Start place ranks parentKey contextId tables) :
    Inherited place ranks parentKey contextId tables (tables, []) := by
  constructor
  · intro w hw co hco
    apply Kept.mk hco
    intro leader co' hget
    rw [h.fresh w hw leader] at hget
    exact nomatch hget
  · intro r w c co _ hmem
    exact nomatch hmem

theorem Start.ne (h : Start place ranks parentKey contextId tables) (hranks : ranks ≠ []) :
    parentKey.contextId ≠ contextId := by
  obtain ⟨w, hw⟩ := List.exists_mem_of_ne_nil ranks hranks
  obtain ⟨co, hco, -⟩ := h.committed w hw
  intro heq
  have hnone := h.fresh w hw parentKey.leader
  have hkey : (⟨contextId, parentKey.leader⟩ : Key) = parentKey := by rw [← heq]
  rw [hkey, hco] at hnone
  exact nomatch hnone

theorem Inherited.step (hstart : Start place ranks parentKey contextId tables)
    {st st' : (Nat → Table) × List (Nat × Option NewComm)} {r : Nat} (hr : r < ranks.length)
    (hinherited : Inherited place ranks parentKey contextId tables st)
    (h : copyStep place ranks parentKey size contextId st r = .ok st') :
    Inherited place ranks parentKey contextId tables st' := by
  have hget : ranks[r]? = some (ranks.getD r 0) := by
    rw [List.getD_eq_getElem?_getD, List.getElem?_eq_getElem hr]
    rfl
  have hw := List.mem_of_getElem? hget
  obtain ⟨co, hco, hcommitted⟩ := hstart.committed _ hw
  obtain ⟨⟨comm, table⟩, hcopy, hret⟩ := bind_eq_ok.mp h
  obtain rfl := Except.ok.inj hret
  have hne := hstart.ne (List.ne_nil_of_mem hw)
  obtain ⟨hkept, halike⟩ := copy_kept (hinherited.kept _ hw co hco) hcommitted.ptn hne hcopy
  constructor
  · intro w' hw' co' hco'
    by_cases hpid : place.pid w' = place.pid (ranks.getD r 0)
    · rw [hpid, hco] at hco'
      show Kept parentKey contextId co' (update st.1 (place.pid (ranks.getD r 0)) table _)
      rw [hpid, update_self, ← Option.some.inj hco']
      exact hkept
    · show Kept parentKey contextId co' (update st.1 (place.pid (ranks.getD r 0)) table _)
      rw [update_of_ne hpid]
      exact hinherited.kept w' hw' co' hco'
  · intro r' w' c co' hr' hmem hco'
    rcases List.mem_append.mp hmem with hold | hnew
    · exact hinherited.results r' w' c co' hr' hold hco'
    · obtain ⟨rfl, hcomm⟩ := Prod.mk.inj (List.mem_singleton.mp hnew)
      rw [hget] at hr'
      rw [← Option.some.inj hr', hco] at hco'
      rw [← Option.some.inj hco']
      exact halike c hcomm.symm

theorem Inherited.foldlM (hstart : Start place ranks parentKey contextId tables) {order : List Nat}
    (horder : ∀ r ∈ order, r < ranks.length) {st st' : (Nat → Table) × List (Nat × Option NewComm)}
    (hinherited : Inherited place ranks parentKey contextId tables st)
    (h : order.foldlM (copyStep place ranks parentKey size contextId) st = .ok st') :
    Inherited place ranks parentKey contextId tables st' := by
  induction order generalizing st with
  | nil =>
    obtain rfl := Except.ok.inj h
    exact hinherited
  | cons r order ih =>
    rw [List.foldlM_cons] at h
    obtain ⟨mid, hstep, hrest⟩ := bind_eq_ok.mp h
    have hmid := hinherited.step hstart (horder r List.mem_cons_self) hstep
    exact ih (fun r' hr' => horder r' (List.mem_cons_of_mem r hr')) hmid hrest

theorem copyAll_zero (order : List Nat) :
    copyAll place ranks parentKey 0 contextId order tables = .ok (tables, order.map (·, none)) := by
  have hall : ∀ results, order.foldlM (copyStep place ranks parentKey 0 contextId) (tables, results) =
      .ok (tables, results ++ order.map (·, none)) := by
    intro results
    induction order generalizing results with
    | nil =>
      rw [List.map_nil, List.append_nil]
      rfl
    | cons r order ih =>
      have hstep : copyStep place ranks parentKey 0 contextId (tables, results) r =
          .ok (tables, results ++ [(r, none)]) := by
        show Except.ok (update tables _ (tables _), _) = _
        rw [update_eq_self]
      rw [List.foldlM_cons, hstep]
      show order.foldlM _ _ = _
      rw [ih, List.map_cons, List.append_assoc, List.singleton_append]
  exact hall []

def CopiesRight (place : Placement) (ranks : List Proc) (parentKey : Key) (size contextId : Nat)
    (order : List Nat) (tables : Nat → Table) : Prop :=
  ∃ tables' results, copyAll place ranks parentKey size contextId order tables = .ok (tables', results) ∧
    ∀ (r : Nat) (w : Proc), (ranks.take size)[r]? = some w →
      ∃ c, (r, some c) ∈ results ∧ Right place (place.pid w) (ranks.take size) c

/-- A proper part never gets its own tables, wherever the processes are and in whatever order they run. -/
theorem copy_right_iff (place : Placement) (ranks : List Proc) (parentKey : Key) (size contextId : Nat)
    (order : List Nat) (tables : Nat → Table) (hsize : size < ranks.length)
    (horder : order.Perm (List.range ranks.length)) (hstart : Start place ranks parentKey contextId tables) :
    CopiesRight place ranks parentKey size contextId order tables ↔ size = 0 := by
  constructor
  · intro hright
    obtain ⟨tables', results, hall, hcomms⟩ := hright
    by_contra hzero
    have hlt : ∀ r ∈ order, r < ranks.length := fun r hr => List.mem_range.mp (horder.mem_iff.mp hr)
    have hinherited := hstart.inherited.foldlM hstart hlt hall
    have hsplit : ranks = ranks.take size ++ ranks[size] :: ranks.drop (size + 1) := by
      rw [← List.drop_eq_getElem_cons hsize, List.take_append_drop]
    have hne : ranks.take size ≠ [] := by
      intro hnil
      have hlen := congrArg List.length hnil
      rw [List.length_take, List.length_nil] at hlen
      omega
    obtain ⟨w, hw, hsizes⟩ := exists_size_ne place hne ranks[size] (ranks.drop (size + 1))
    rw [← hsplit] at hsizes
    obtain ⟨r, hr⟩ := List.getElem?_of_mem hw
    have hwhole : ranks[r]? = some w := by
      have hlen := (List.getElem?_eq_some_iff.mp hr).1
      rw [List.length_take] at hlen
      rw [← hr, List.getElem?_take_of_lt (by omega)]
    obtain ⟨c, hc, hcright⟩ := hcomms r w hr
    obtain ⟨co, hco, hcommitted⟩ := hstart.committed w (List.mem_of_getElem? hwhole)
    have halike := hinherited.results r w c co hwhole hc hco
    have hexternal := hcright.externalSize.symm.trans (halike.externalSize.trans hcommitted.externalSize)
    have hlocal := hcright.localSize.symm.trans (halike.localSize.trans hcommitted.localSize)
    have hfgLocal := hcright.fgLocalSize.symm.trans (halike.fgLocalSize.trans hcommitted.fgLocalSize)
    rcases hsizes with h | h | h
    · exact h hexternal
    · exact h hlocal
    · exact h hfgLocal
  · intro hzero
    subst hzero
    refine ⟨tables, order.map (·, none), copyAll_zero order, fun r w hr => ?_⟩
    rw [List.take_zero] at hr
    exact nomatch hr

end All

def trio : Placement := ⟨3, 2, (· / 2), fun _ => 0, fun p hp => by omega⟩

def trioShared (p : Nat) : CoShared where
  rtwMap := [some 0, some 1, some 2]
  ptn := some (nestedMaps trio p [0, 1, 2]).ptn
  externalSize := 1
  localSize := 2
  fgLocalSize := if p = 0 then 2 else 1

def trioTables : Nat → Table := fun p => update (fun _ => none) ⟨0, 0⟩ (some (trioShared p))

theorem copy_right_trio :
    (2 < 3 ∧ [0, 1, 2].Perm (List.range 3) ∧ Start trio [0, 1, 2] ⟨0, 0⟩ 16 trioTables) ∧
      (CopiesRight trio [0, 1, 2] ⟨0, 0⟩ 2 16 [0, 1, 2] trioTables ↔ 2 = 0) := by
  have hstart : Start trio [0, 1, 2] ⟨0, 0⟩ 16 trioTables := by
    constructor
    · intro w hw
      refine ⟨trioShared (trio.pid w), update_self .., ?_⟩
      rcases List.mem_cons.mp hw with rfl | hw
      · exact ⟨rfl, rfl, rfl, rfl, rfl⟩
      rcases List.mem_cons.mp hw with rfl | hw
      · exact ⟨rfl, rfl, rfl, rfl, rfl⟩
      obtain rfl := List.mem_singleton.mp hw
      exact ⟨rfl, rfl, rfl, rfl, rfl⟩
    · intro w _ leader
      show update (fun _ => none) (⟨0, 0⟩ : Key) (some (trioShared (trio.pid w))) _ = none
      apply update_of_ne
      intro heq
      have hid : 16 = 0 := congrArg Key.contextId heq
      omega
  have horder : [0, 1, 2].Perm (List.range 3) := List.Perm.refl _
  exact ⟨⟨by decide, horder, hstart⟩,
    copy_right_iff trio [0, 1, 2] ⟨0, 0⟩ 2 16 [0, 1, 2] trioTables (by decide) horder hstart⟩

theorem unwritten_nodeComm :
    ¬ CopiesRight trio [0, 1, 2] ⟨0, 0⟩ 2 16 [0, 1, 2] trioTables ∧
      (copyAll trio [0, 1, 2] ⟨0, 0⟩ 2 16 [0, 1, 2] trioTables).toOption.map
          (fun s => s.2.map fun c => (c.1, c.2.map fun c => (c.shared.localSize, c.nested.nodeComm))) =
        some [(0, some (2, some [none, none])), (1, some (2, none)), (2, none)] ∧
      (nestedMaps trio 0 [0, 1]).intranode = [0] := by
  have hrun : (copyAll trio [0, 1, 2] ⟨0, 0⟩ 2 16 [0, 1, 2] trioTables).toOption.map
      (fun s => s.2.map fun c => (c.1, c.2.map fun c => (c.shared.localSize, c.nested.nodeComm))) =
      some [(0, some (2, some [none, none])), (1, some (2, none)), (2, none)] := by
    rfl
  refine ⟨?_, hrun, rfl⟩
  rintro ⟨tables', results, hall, hright⟩
  obtain ⟨c, hc, hcright⟩ := hright 0 0 rfl
  rw [hall] at hrun
  have hmem := List.mem_map_of_mem (f := fun c : Nat × Option NewComm =>
    (c.1, c.2.map fun c => (c.shared.localSize, c.nested.nodeComm))) hc
  have hresults : results.map (fun c => (c.1, c.2.map fun c => (c.shared.localSize, c.nested.nodeComm))) =
      [(0, some (2, some [none, none])), (1, some (2, none)), (2, none)] := Option.some.inj hrun
  rw [hresults] at hmem
  have hsize : c.shared.localSize = 1 := hcright.localSize
  simp [hsize] at hmem

end FgMpi.Comm.CopyPrefix
