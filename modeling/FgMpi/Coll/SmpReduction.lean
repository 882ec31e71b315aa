import FgMpi.Coll.SmpReducePlan

/-! Reduction over the hierarchy, for every process. -/

namespace FgMpi.Coll.SmpReduce
open Comm.NestedMaps Hierarchy SmpCalls Machine.Dialogues
open SmpBcast (Kind CommId originLeader originRoot)
open Buffers (localcopy)

section Facts
variable {place : Placement} {ranks : List Proc} {origin w : Proc} {members : List Proc} {kind : Kind}

theorem subComm_eq_none (hw : w ∈ members) : subComm members w = none ↔ ¬ 1 < members.length := by
  rw [subComm]
  split
  · rename_i hand
    exact ⟨by rintro ⟨⟩, fun hnot => absurd hand.1 hnot⟩
  · rename_i hnot
    exact ⟨fun _ hlen => hnot ⟨hlen, hw⟩, fun _ => rfl⟩

theorem groupOf_eq_none (hw : w ∈ members) : groupOf kind members w = none ↔ ¬ 1 < members.length := by
  rw [groupOf]
  split
  · rename_i hand
    exact ⟨by rintro ⟨⟩, fun hnot => absurd hand.1 hnot⟩
  · rename_i hnot
    exact ⟨fun _ hlen => hnot ⟨hlen, hw⟩, fun _ => rfl⟩

theorem singleton_of_length (hw : w ∈ members) (hlen : ¬ 1 < members.length) : members = [w] :=
  alone hw fun hand => hlen hand.1

theorem leaders_idxOf (hlead : w ∈ leaders place ranks (nodeOf place w)) :
    (leaders place ranks (nodeOf place w)).idxOf w = 0 ↔ w ∈ roots place ranks := by
  rw [mem_roots_iff, idxOf_eq_zero hlead]

theorem leaders_subset_of_roots (h : w ∈ roots place ranks) : w ∈ leaders place ranks (nodeOf place w) :=
  SmpBcast.roots_leaders place h

end Facts

section Processes
variable {α : Type} {op : α → α → α} {count : Nat} {place : Placement} {ranks : List Proc} {origin w : Proc}
variable {args : Proc → Args α} {fits : List (Item α) → Inp CommId Proc → Prop} {root n : Nat}
variable {r : Except Fault (Memory α)}

theorem start_other (hne : w ≠ origin) (hnodup : ranks.Nodup) (hroot : ranks[root]? = some origin) (sub : SubComms) :
    start (ranks.idxOf w) root sub (args w) =
      ⟨.buf (.mem true (args w).sendbuf), tmpBuf sub (args w).heap, (args w).elsewhere, false⟩ := by
  have hrank : ranks.idxOf w ≠ root := fun heq => hne ((SmpBcast.rank_eq_root hnodup hroot).mp heq.symm)
  rw [start, if_neg (fun hand => hrank hand.1), if_neg hrank]

theorem result_other (hne : w ≠ origin) : result op count ranks origin args w = .ok (args w).elsewhere := by
  rw [result, if_neg hne, recv, if_neg hne]

theorem input_other (hne : w ≠ origin) : input origin args w = (args w).sendbuf := if_neg fun hand => hne hand.1

variable (op count place ranks origin root w) in
abbrev fromOsproc (b : Bufs α) : SmpProg α :=
  rootOsproc op count (subsOf place ranks w) (entry place (place.pid w) ranks origin) b fun b => .done (.ok b.recvbuf)

variable (op count place ranks origin root w) in
abbrev fromNode (b : Bufs α) : SmpProg α :=
  rootNode op count (ranks.idxOf w) root (subsOf place ranks w) (entry place (place.pid w) ranks origin) b
    (fromOsproc op count place ranks origin w)

variable (op count place ranks origin root w) in
abbrev fromRoots (b : Bufs α) : SmpProg α :=
  amongRoots op count (ranks.idxOf w) root (subsOf place ranks w) (entry place (place.pid w) ranks origin) b
    (fromNode op count place ranks origin w root)

variable (op count place ranks origin args fits root w) in
def Reduces : Prop :=
  Follows fits (result op count ranks origin args w) (staged (reduceAct op count place ranks origin args w) 0 5)
    (reduceSmp op count (ranks.idxOf w) root (subsOf place ranks w) (entry place (place.pid w) ranks origin) (args w))

theorem contribution_inPlace {tmp : Memory α} {data : Nat → α} (h : tmp = .mem true data) :
    contribution true .inPlace tmp = .ok data := by
  rw [h]
  rfl

theorem contribution_buf {sendbuf : SendBuf α} {data : Nat → α} (h : sendbuf = .buf (.mem true data)) (atRoot : Bool)
    (recvbuf : Memory α) : contribution atRoot sendbuf recvbuf = .ok data := by
  rw [h]
  rfl

theorem member_follows (hnodup : ranks.Nodup) (hroot : ranks[root]? = some origin) (hw : w ∈ ranks)
    (hne : w ≠ origin) (hlead : w ∉ leaders place ranks (nodeOf place w)) :
    Reduces op count place ranks origin w args fits root := by
  unfold Reduces
  have horigin : origin ∈ ranks := List.mem_of_getElem? hroot
  have hmem := mem_colocated place hw
  have hnode : nodeGroup place ranks w = none := groupOf_neg fun hand => hlead hand.2
  have hroots : rootsGroup place ranks w = none :=
    groupOf_neg fun hand => hlead (leaders_subset_of_roots hand.2)
  have hotherNodes : otherNodesGroup place ranks origin w = none := by rw [otherNodesGroup, hnode, ite_self]
  have hrootNode : rootNodeGroup place ranks origin w = none := by rw [rootNodeGroup, hnode, ite_self]
  have hlen : 1 < (colocated place ranks (place.pid w)).length := by
    refine SmpBcast.one_lt_length (SmpBcast.leaderOf_colocated place hw) hmem fun heq => hlead ?_
    exact (SmpBcast.mem_leaders_iff_eq place hw).mpr heq
  have hosproc : osprocGroup place ranks w = some ⟨.osprocColocatedComm, colocated place ranks (place.pid w)⟩ :=
    groupOf_pos hlen hmem
  rw [result_other hne, reduceSmp, start_other hne hnodup hroot]
  by_cases hpid : place.pid w = place.pid origin
  · have hother : otherOsprocsGroup place ranks origin w = none := if_neg (not_not.mpr hpid)
    have hbusy : rootOsprocGroup place ranks origin w =
        some ⟨.osprocColocatedComm, colocated place ranks (place.pid w)⟩ := (if_pos hpid).trans hosproc
    have hcol : origin ∈ colocated place ranks (place.pid w) := hpid ▸ mem_colocated place horigin
    have hvalue : standing op origin args (ofLeaders place ranks origin) w = (args w).sendbuf := by
      have hnotlead : w ≠ originLeader place ranks origin := by
        rintro rfl
        exact hlead (by rw [node_of_pid hpid]; exact SmpBcast.leaderOf_leaders place horigin)
      have hnotroot : w ≠ originRoot place ranks origin := by
        rintro rfl
        exact hlead (by rw [node_of_pid hpid]; exact SmpBcast.nodeRoot_leaders place horigin)
      rw [standing, ofLeaders_other hnotlead, ofRoots_other hnotroot, ofNodes_own (node_of_pid hpid),
        ofOsprocs_own hpid, ← input_other hne]
      rfl
    refine otherOsprocs_pass hother (otherNodes_pass hotherNodes horigin (amongRoots_pass hroots
      (rootNode_pass hrootNode ?_)))
    rw [rootOsproc_busy hbusy]
    refine reduce_give_level rootOsproc_act hbusy (fun heq => hne ((List.idxOf_inj hmem).mp heq)) rfl
      (fun i _ => ?_) rfl
    rw [hvalue]
  · have hbusy : otherOsprocsGroup place ranks origin w =
        some ⟨.osprocColocatedComm, colocated place ranks (place.pid w)⟩ := (if_pos hpid).trans hosproc
    have hother : rootOsprocGroup place ranks origin w = none := if_neg hpid
    have hzero : (colocated place ranks (place.pid w)).idxOf w ≠ 0 := mt (mem_leaders_iff place hw).mpr hlead
    rw [otherOsprocs_busy hbusy, assert_pos fun heq => absurd heq.symm hzero]
    refine reduce_give_level otherOsprocs_act hbusy hzero rfl (fun i _ => ?_) ?_
    · rw [standing_self, input_other hne]
    · exact otherNodes_pass hotherNodes horigin (amongRoots_pass hroots (rootNode_pass hrootNode
        (rootOsproc_pass hother rfl)))

/-- What a leader other than the root has for the next reduction.  Once it has received something, that is
in `tmp_buf`. -/
structure Leading (place : Placement) (ranks : List Proc) (args : Args α) (count : Nat) (w : Proc) (through : Prop)
    (v : Nat → α) (b : Bufs α) : Prop where
  sendbuf : b.sendbuf = .buf (.mem true args.sendbuf)
  recvbuf : b.recvbuf = args.elsewhere
  tmp : through → b.tmpBuf = .mem true (localcopy v args.heap count) ∧ b.didReduce = true
  own : ¬ through → ∀ i < count, args.sendbuf i = v i
  room : 1 < (colocated place ranks (place.pid w)).length ∨ 1 < (leaders place ranks (nodeOf place w)).length →
    ∃ written b', b.tmpBuf = .mem written (localcopy b' args.heap count)

theorem tmpBuf_leader (hw : w ∈ ranks) (hlead : w ∈ leaders place ranks (nodeOf place w)) (heap : Nat → α)
    (h : 1 < (colocated place ranks (place.pid w)).length ∨ 1 < (leaders place ranks (nodeOf place w)).length) :
    tmpBuf (subsOf place ranks w) heap = .mem false heap := by
  have hmem := mem_colocated place hw
  unfold tmpBuf subsOf
  dsimp only
  rw [SmpBcast.subComm_of_mem hlead, SmpBcast.subComm_of_mem hmem]
  by_cases hnode : 1 < (leaders place ranks (nodeOf place w)).length
  · rw [if_pos hnode]
  · rw [if_neg hnode, if_pos (h.resolve_right hnode)]
    exact if_pos ((mem_leaders_iff place hw).mp hlead).symm

theorem otherOsprocs_follows [Std.Associative op] (hw : w ∈ ranks) (hne : w ≠ origin)
    (hnodup : ranks.Nodup) (hroot : ranks[root]? = some origin) (hlead : w ∈ leaders place ranks (nodeOf place w))
    {next : Bufs α → SmpProg α}
    (hnext : ∀ b, Leading place ranks (args w) count w
        (place.pid w ≠ place.pid origin ∧ 1 < (colocated place ranks (place.pid w)).length)
        (standing op origin args (ofOsprocs place ranks origin) w) b →
      Follows fits r (staged (reduceAct op count place ranks origin args w) 1 n) (next b)) :
    Follows fits r (staged (reduceAct op count place ranks origin args w) 0 (n + 1))
      (otherOsprocs op count (subsOf place ranks w) (entry place (place.pid w) ranks origin)
        (start (ranks.idxOf w) root (subsOf place ranks w) (args w)) next) := by
  have hmem := mem_colocated place hw
  have hroom : ∀ heap : Nat → α, 1 < (colocated place ranks (place.pid w)).length ∨
      1 < (leaders place ranks (nodeOf place w)).length →
      ∃ written b', tmpBuf (subsOf place ranks w) heap = .mem written (localcopy b' heap count) := by
    intro heap h
    exact ⟨false, heap, by rw [tmpBuf_leader hw hlead heap h, localcopy_self]⟩
  rw [start_other hne hnodup hroot]
  by_cases hbusy : place.pid w ≠ place.pid origin ∧ 1 < (colocated place ranks (place.pid w)).length
  · have hgroup : otherOsprocsGroup place ranks origin w =
        some ⟨.osprocColocatedComm, colocated place ranks (place.pid w)⟩ :=
      (if_pos hbusy.1).trans (groupOf_pos hbusy.2 hmem)
    have hzero : (colocated place ranks (place.pid w)).idxOf w = 0 := (mem_leaders_iff place hw).mp hlead
    have htmp := tmpBuf_leader hw hlead (args w).heap (.inl hbusy.2)
    rw [otherOsprocs_busy hgroup, assert_pos fun _ => by rw [htmp]; rfl]
    refine reduce_root_level otherOsprocsGroup_grouped otherOsprocs_act hgroup hzero htmp rfl (fun i _ => ?_) ?_
    · rw [standing_self, input_other hne]
    · refine hnext _ ⟨rfl, rfl, fun _ => ⟨?_, rfl⟩, fun hnot => absurd hbusy hnot, fun _ => ⟨true, _, rfl⟩⟩
      refine congrArg (Memory.mem true) (localcopy_congr fun i _ => ?_)
      have hall : ∀ v, v ∈ ofSelf v := fun _ => List.mem_cons_self
      refine (standing_merged hall hmem i).trans ?_
      rw [standing, ofOsprocs, merged_pos ⟨hbusy.1, hlead⟩]
  · have hnone : otherOsprocsGroup place ranks origin w = none := by
      rw [otherOsprocsGroup]
      split
      · rename_i hpid
        exact (groupOf_eq_none hmem).mpr fun hlen => hbusy ⟨hpid, hlen⟩
      · rfl
    refine otherOsprocs_pass hnone (hnext _ ⟨rfl, rfl, fun h => absurd h hbusy, fun _ i _ => ?_, hroom _⟩)
    have hself : ofOsprocs place ranks origin w = [w] := by
      by_cases hpid : place.pid w = place.pid origin
      · exact ofOsprocs_own hpid
      · rw [ofOsprocs_other hlead hpid]
        exact singleton_of_length hmem fun hlen => hbusy ⟨hpid, hlen⟩
    rw [standing, hself, ← input_other hne]
    rfl

theorem otherNode_follows [Std.Associative op] (hnodup : ranks.Nodup) (hroot : ranks[root]? = some origin)
    (hw : w ∈ ranks) (hlead : w ∈ leaders place ranks (nodeOf place w))
    (hnode : nodeOf place w ≠ nodeOf place origin) :
    Reduces op count place ranks origin w args fits root := by
  unfold Reduces
  have horigin : origin ∈ ranks := List.mem_of_getElem? hroot
  have hmem := mem_colocated place hw
  have hne : w ≠ origin := by
    rintro rfl
    exact hnode rfl
  have hpid : place.pid w ≠ place.pid origin := fun hpid => hnode (node_of_pid hpid)
  have hrootNode : rootNodeGroup place ranks origin w = none := if_neg hnode
  have hrootOsproc : rootOsprocGroup place ranks origin w = none := if_neg hpid
  rw [result_other hne]
  refine otherOsprocs_follows hw hne hnodup hroot hlead fun b hb => ?_
  -- What is left when the node has been served.
  have hrest : ∀ b, Leading place ranks (args w) count w
      (1 < (colocated place ranks (place.pid w)).length ∨ 1 < (leaders place ranks (nodeOf place w)).length)
      (standing op origin args (ofNodes place ranks origin) w) b → w ∈ roots place ranks →
      Follows fits (.ok (args w).elsewhere) (staged (reduceAct op count place ranks origin args w) 2 3)
        (fromRoots op count place ranks origin w root b) := by
    intro b hb hmemroots
    have hotherRoot : w ≠ originRoot place ranks origin := by
      rintro rfl
      exact hnode (SmpBcast.nodeOf_nodeRoot place horigin)
    have hgroup : rootsGroup place ranks w = some ⟨.nodeRootsComm, roots place ranks⟩ :=
      groupOf_pos (SmpBcast.one_lt_length hmemroots (SmpBcast.nodeRoot_roots place horigin) hotherRoot) hmemroots
    have hidx : (roots place ranks).idxOf w ≠ (roots place ranks).idxOf (originRoot place ranks origin) :=
      fun heq => hotherRoot ((List.idxOf_inj hmemroots).mp heq)
    have hdone : Follows fits (.ok (args w).elsewhere) (staged (reduceAct op count place ranks origin args w) 3 2)
        (fromNode op count place ranks origin w root { b with didReduce := true }) := by
      refine rootNode_pass hrootNode ?_
      refine rootOsproc_pass hrootOsproc ?_
      rw [hb.recvbuf]
      rfl
    rw [fromRoots, amongRoots_busy hgroup horigin]
    dsimp only
    rw [if_pos hidx]
    by_cases hthrough : 1 < (colocated place ranks (place.pid w)).length ∨
        1 < (leaders place ranks (nodeOf place w)).length
    · obtain ⟨htmp, hdid⟩ := hb.tmp hthrough
      have hsome : ¬ ((subsOf place ranks w).nodeComm = none ∧ (subsOf place ranks w).osprocColocatedComm = none) := by
        rintro ⟨hn, ho⟩
        rcases hthrough with h | h
        · exact (subComm_eq_none hmem).mp ho h
        · exact (subComm_eq_none hlead).mp hn h
      rw [if_neg hsome, assert_pos hdid]
      exact reduce_give_level amongRoots_act hgroup hidx
        (contribution_buf (congrArg SendBuf.buf htmp) _ _) (fun i hi => localcopy_below hi) hdone
    · have hnone : (subsOf place ranks w).nodeComm = none ∧ (subsOf place ranks w).osprocColocatedComm = none :=
        ⟨(subComm_eq_none hlead).mpr fun h => hthrough (.inr h),
          (subComm_eq_none hmem).mpr fun h => hthrough (.inl h)⟩
      rw [if_pos hnone]
      exact reduce_give_level amongRoots_act hgroup hidx (contribution_buf hb.sendbuf _ _) (hb.own hthrough) hdone
  by_cases hlen : 1 < (leaders place ranks (nodeOf place w)).length
  · have hgroup : otherNodesGroup place ranks origin w = some ⟨.nodeComm, leaders place ranks (nodeOf place w)⟩ :=
      (if_pos hnode).trans (groupOf_pos hlen hlead)
    obtain ⟨written, b', hroom⟩ := hb.room (.inr hlen)
    rw [otherNodes_busy hgroup]
    -- It gives what its OS process has; the root of the node has that in place.
    have hcol : ∀ o, subComm (colocated place ranks (place.pid w)) w = some o →
        1 < (colocated place ranks (place.pid w)).length ∧ 0 = o.rank := by
      intro o ho
      have hlenc : 1 < (colocated place ranks (place.pid w)).length := by
        by_contra hnot
        rw [(subComm_eq_none hmem).mpr hnot] at ho
        exact nomatch ho
      rw [SmpBcast.subComm_of_mem hmem, if_pos hlenc] at ho
      obtain rfl := Option.some.inj ho
      exact ⟨hlenc, ((mem_leaders_iff place hw).mp hlead).symm⟩
    have hown : subComm (colocated place ranks (place.pid w)) w = none →
        ∀ i < count, (args w).sendbuf i = standing op origin args (ofOsprocs place ranks origin) w i :=
      fun ho => hb.own fun hand => (subComm_eq_none hmem).mp ho hand.2
    by_cases hmemroots : w ∈ roots place ranks
    · have hzero := (leaders_idxOf hlead).mpr hmemroots
      have hvalue : ∀ i, sumOf op (standing op origin args (ofOsprocs place ranks origin))
          (leaders place ranks (nodeOf place w)) w i = standing op origin args (ofNodes place ranks origin) w i := by
        intro i
        rw [standing_merged mem_ofOsprocs hlead, standing, ofNodes, merged_pos ⟨hnode, hmemroots⟩]
      have hnext : Follows fits (.ok (args w).elsewhere) (staged (reduceAct op count place ranks origin args w) 2 3)
          (fromRoots op count place ranks origin w root
            { b with tmpBuf := .mem true (localcopy (sumOf op
                (standing op origin args (ofOsprocs place ranks origin))
                (leaders place ranks (nodeOf place w)) w) (localcopy b' (args w).heap count) count), didReduce := true }) := by
        rw [localcopy_twice, localcopy_congr fun i _ => hvalue i]
        exact hrest _ ⟨hb.sendbuf, hb.recvbuf, fun _ => ⟨rfl, rfl⟩, fun hnot => absurd (.inr hlen) hnot,
          fun _ => ⟨true, _, rfl⟩⟩ hmemroots
      dsimp only
      cases ho : subComm (colocated place ranks (place.pid w)) w with
      | some o =>
        obtain ⟨hlenc, hrank⟩ := hcol o ho
        obtain ⟨htmp, hdid⟩ := hb.tmp ⟨hpid, hlenc⟩
        dsimp only
        rw [assert_pos hdid, assert_pos hrank, if_pos hzero.symm]
        exact reduce_root_level otherNodesGroup_grouped otherNodes_act hgroup hzero hroom (contribution_inPlace htmp)
          (fun i hi => localcopy_below hi) hnext
      | none =>
        exact reduce_root_level otherNodesGroup_grouped otherNodes_act hgroup hzero hroom
          (contribution_buf hb.sendbuf _ _) (hown ho) hnext
    · have hzero : (leaders place ranks (nodeOf place w)).idxOf w ≠ 0 := mt (leaders_idxOf hlead).mp hmemroots
      have hnext : Follows fits (.ok (args w).elsewhere) (staged (reduceAct op count place ranks origin args w) 2 3)
          (fromRoots op count place ranks origin w root { b with tmpBuf := b.tmpBuf, didReduce := true }) := by
        refine amongRoots_pass (groupOf_neg fun hand => hmemroots hand.2)
          (rootNode_pass hrootNode (rootOsproc_pass hrootOsproc ?_))
        rw [hb.recvbuf]
        rfl
      dsimp only
      cases ho : subComm (colocated place ranks (place.pid w)) w with
      | some o =>
        obtain ⟨hlenc, hrank⟩ := hcol o ho
        obtain ⟨htmp, hdid⟩ := hb.tmp ⟨hpid, hlenc⟩
        dsimp only
        rw [assert_pos hdid, assert_pos hrank, if_neg (Ne.symm hzero)]
        exact reduce_give_level otherNodes_act hgroup hzero
          (contribution_buf (congrArg SendBuf.buf htmp) _ _) (fun i hi => localcopy_below hi) hnext
      | none =>
        exact reduce_give_level otherNodes_act hgroup hzero (contribution_buf hb.sendbuf _ _) (hown ho) hnext
  · have hself := singleton_of_length hlead hlen
    have hgroup : otherNodesGroup place ranks origin w = none :=
      (if_pos hnode).trans ((groupOf_eq_none hlead).mpr hlen)
    have hmemroots : w ∈ roots place ranks := by
      rw [mem_roots_iff, hself]
      rfl
    have hvalue : standing op origin args (ofNodes place ranks origin) w =
        standing op origin args (ofOsprocs place ranks origin) w := by
      rw [standing, ofNodes, merged_pos ⟨hnode, hmemroots⟩, hself, List.flatMap_singleton, standing]
    refine otherNodes_pass hgroup horigin (hrest b ⟨hb.sendbuf, hb.recvbuf, fun h => ?_, fun h => ?_, hb.room⟩ hmemroots)
    · rw [hvalue]
      exact hb.tmp ⟨hpid, h.resolve_right hlen⟩
    · rw [hvalue]
      exact hb.own fun hand => h (.inl hand.2)

section
variable (horigin : origin ∈ ranks)
include horigin

theorem ofRoots_alone (hnode : nodeOf place w = nodeOf place origin)
    (h : rootsGroup place ranks w = none) : ofRoots place ranks origin w = ofOsprocs place ranks origin w := by
  rw [← ofNodes_own hnode]
  by_cases hw : w = originRoot place ranks origin
  · have hmem : w ∈ roots place ranks := hw ▸ SmpBcast.nodeRoot_roots place horigin
    have hself : roots place ranks = [w] := singleton_of_length hmem ((groupOf_eq_none hmem).mp h)
    have hroots : ofRoots place ranks origin w = (roots place ranks).flatMap (ofNodes place ranks origin) := if_pos hw
    rw [hroots, hself, List.flatMap_singleton]
  · exact ofRoots_other hw

theorem roots_value [Std.Associative op] (hw : w = originRoot place ranks origin) (i : Nat) :
    sumOf op (standing op origin args (ofNodes place ranks origin)) (roots place ranks) w i =
      standing op origin args (ofRoots place ranks origin) w i := by
  have hmem : w ∈ roots place ranks := hw ▸ SmpBcast.nodeRoot_roots place horigin
  have hall : ofRoots place ranks origin w = (roots place ranks).flatMap (ofNodes place ranks origin) := if_pos hw
  rw [standing_merged mem_ofNodes hmem, standing, hall]

theorem ofLeaders_alone (hnode : nodeOf place w = nodeOf place origin)
    (h : rootNodeGroup place ranks origin w = none) :
    ofLeaders place ranks origin w = ofRoots place ranks origin w := by
  by_cases hw : w = originLeader place ranks origin
  · have hmem : w ∈ leaders place ranks (nodeOf place w) := by
      rw [hnode, hw]
      exact SmpBcast.leaderOf_leaders place horigin
    rw [rootNodeGroup, if_pos hnode] at h
    have hself : leaders place ranks (nodeOf place w) = [w] :=
      singleton_of_length hmem ((groupOf_eq_none hmem).mp h)
    have hlead : ofLeaders place ranks origin w =
        (leaders place ranks (nodeOf place origin)).flatMap (ofRoots place ranks origin) := if_pos hw
    rw [hlead, ← hnode, hself, List.flatMap_singleton]
  · exact ofLeaders_other hw

theorem leaders_value [Std.Associative op] (hnode : nodeOf place w = nodeOf place origin)
    (hw : w = originLeader place ranks origin) (i : Nat) :
    sumOf op (standing op origin args (ofRoots place ranks origin)) (leaders place ranks (nodeOf place w)) w i =
      standing op origin args (ofLeaders place ranks origin) w i := by
  have hmem : w ∈ leaders place ranks (nodeOf place w) := by
    rw [hnode, hw]
    exact SmpBcast.leaderOf_leaders place horigin
  have hall : ofLeaders place ranks origin w =
      (leaders place ranks (nodeOf place origin)).flatMap (ofRoots place ranks origin) := if_pos hw
  rw [standing_merged (mem_ofRoots horigin) hmem, standing, hall, hnode]

end

theorem sameNode_follows [Std.Associative op] (hnodup : ranks.Nodup) (hroot : ranks[root]? = some origin)
    (hw : w ∈ ranks) (hlead : w ∈ leaders place ranks (nodeOf place w))
    (hnode : nodeOf place w = nodeOf place origin) (hpid : place.pid w ≠ place.pid origin) :
    Reduces op count place ranks origin w args fits root := by
  unfold Reduces
  have horigin : origin ∈ ranks := List.mem_of_getElem? hroot
  have hmem := mem_colocated place hw
  have hne : w ≠ origin := by
    rintro rfl
    exact hpid rfl
  have hrank : ranks.idxOf w ≠ root := fun heq => hne ((SmpBcast.rank_eq_root hnodup hroot).mp heq.symm)
  have hnotlead : w ≠ originLeader place ranks origin := by
    rintro rfl
    exact hpid (SmpBcast.pid_leaderOf place horigin)
  have htargets : originLeader place ranks origin ∈ leaders place ranks (nodeOf place w) :=
    hnode ▸ SmpBcast.leaderOf_leaders place horigin
  have hlen := SmpBcast.one_lt_length hlead htargets hnotlead
  have hgroup : rootNodeGroup place ranks origin w = some ⟨.nodeComm, leaders place ranks (nodeOf place w)⟩ :=
    (if_pos hnode).trans (groupOf_pos hlen hlead)
  have hidx : (leaders place ranks (nodeOf place w)).idxOf w ≠
      (leaders place ranks (nodeOf place w)).idxOf (originLeader place ranks origin) :=
    fun heq => hnotlead ((List.idxOf_inj hlead).mp heq)
  have hnodes : otherNodesGroup place ranks origin w = none := if_neg (not_not.mpr hnode)
  have hlast : rootOsprocGroup place ranks origin w = none := if_neg hpid
  rw [result_other hne]
  -- What is left when the other nodes have been served.
  have hrest : ∀ b : Bufs α, b.recvbuf = (args w).elsewhere →
      ((subsOf place ranks w).osprocColocatedComm ≠ none ∨ (subsOf place ranks w).nodeRootsComm ≠ none →
        b.tmpBuf = .mem true (localcopy (standing op origin args (ofRoots place ranks origin) w) (args w).heap count) ∧
          b.didReduce = true) →
      (¬ ((subsOf place ranks w).osprocColocatedComm ≠ none ∨ (subsOf place ranks w).nodeRootsComm ≠ none) →
        b.sendbuf = .buf (.mem true (args w).sendbuf) ∧
          ∀ i < count, (args w).sendbuf i = standing op origin args (ofRoots place ranks origin) w i) →
      Follows fits (.ok (args w).elsewhere) (staged (reduceAct op count place ranks origin args w) 3 2)
        (fromNode op count place ranks origin w root b) := by
    intro b hrecv htmp hown
    have hdone : Follows fits (.ok (args w).elsewhere) (staged (reduceAct op count place ranks origin args w) 4 1)
        (fromOsproc op count place ranks origin w b) := by
      refine rootOsproc_pass hlast ?_
      rw [hrecv]
      rfl
    rw [fromNode, rootNode_busy hgroup horigin]
    dsimp only
    rw [if_pos hidx]
    by_cases hthrough : (subsOf place ranks w).osprocColocatedComm ≠ none ∨ (subsOf place ranks w).nodeRootsComm ≠ none
    · obtain ⟨hbuf, hdid⟩ := htmp hthrough
      rw [if_pos hthrough, assert_pos hdid]
      exact reduce_give_level rootNode_act hgroup hidx
        (contribution_buf (congrArg SendBuf.buf hbuf) _ _) (fun i hi => localcopy_below hi) hdone
    · obtain ⟨hbuf, hvalue⟩ := hown hthrough
      rw [if_neg hthrough]
      exact reduce_give_level rootNode_act hgroup hidx (contribution_buf hbuf _ _) hvalue hdone
  have hosproc : (subsOf place ranks w).osprocColocatedComm = none ↔
      ¬ 1 < (colocated place ranks (place.pid w)).length := subComm_eq_none hmem
  refine otherOsprocs_follows hw hne hnodup hroot hlead fun b hb => otherNodes_pass hnodes horigin ?_
  cases hroots : rootsGroup place ranks w with
  | none =>
    have hsub : (subsOf place ranks w).nodeRootsComm = none := subComm_none hroots
    have hvalue : standing op origin args (ofRoots place ranks origin) w =
        standing op origin args (ofOsprocs place ranks origin) w := by
      rw [standing, standing, ofRoots_alone horigin hnode hroots]
    refine amongRoots_pass hroots (hrest b hb.recvbuf (fun h => ?_) fun h => ⟨hb.sendbuf, ?_⟩)
    · rw [hvalue]
      exact hb.tmp ⟨hpid, not_not.mp (mt hosproc.mpr (h.resolve_right (not_not.mpr hsub)))⟩
    · rw [hvalue]
      exact hb.own fun hand => h (.inl fun hnone => hosproc.mp hnone hand.2)
  | some c =>
    obtain ⟨hsub, rfl, hmemroots⟩ := subComm_some hroots
    have hself : w = originRoot place ranks origin := root_eq hmemroots hnode
    have htarget : (roots place ranks).idxOf w = (roots place ranks).idxOf (originRoot place ranks origin) := by
      rw [← hself]
    obtain ⟨written, b', hroom⟩ := hb.room (.inr hlen)
    have hsame : standing op origin args (ofNodes place ranks origin) w =
        standing op origin args (ofOsprocs place ranks origin) w := by
      rw [standing, standing, ofNodes_own hnode]
    have hnext : ∀ tmp, tmp = Memory.mem true (localcopy (sumOf op
          (standing op origin args (ofNodes place ranks origin)) (roots place ranks) w)
          (localcopy b' (args w).heap count) count) →
        Follows fits (.ok (args w).elsewhere) (staged (reduceAct op count place ranks origin args w) 3 2)
          (fromNode op count place ranks origin w root { b with tmpBuf := tmp, didReduce := true, sendbuf := .buf tmp }) := by
      rintro _ rfl
      refine hrest _ hb.recvbuf (fun _ => ⟨?_, rfl⟩) fun hnot => absurd (.inr ?_) hnot
      · rw [localcopy_twice, localcopy_congr fun i _ => roots_value horigin hself i]
      · exact fun hnone => nomatch hsub.symm.trans hnone
    rw [amongRoots_busy hroots horigin]
    dsimp only
    rw [if_neg (not_not.mpr htarget), if_pos hrank]
    by_cases hcol : 1 < (colocated place ranks (place.pid w)).length
    · obtain ⟨htmp, hdid⟩ := hb.tmp ⟨hpid, hcol⟩
      rw [if_pos ⟨fun hnone => hosproc.mp hnone hcol, Ne.symm hpid⟩, assert_pos hdid]
      refine reduce_root_level (rootsGroup_grouped place ranks) amongRoots_act hroots htarget hroom
        (contribution_inPlace htmp)
        (fun i hi => ?_) (hnext _ rfl)
      rw [hsame]
      exact localcopy_below hi
    · rw [if_neg fun hand => hand.1 (hosproc.mpr hcol)]
      refine reduce_root_level (rootsGroup_grouped place ranks) amongRoots_act hroots htarget hroom
        (contribution_buf hb.sendbuf _ _)
        (fun i hi => ?_) (hnext _ rfl)
      rw [hsame]
      exact hb.own (fun hand => hcol hand.2) i hi

theorem leader_follows [Std.Associative op] (hnodup : ranks.Nodup) (hroot : ranks[root]? = some origin)
    (hw : w ∈ ranks) (hlead : w ∈ leaders place ranks (nodeOf place w)) (hne : w ≠ origin)
    (hpid : place.pid w = place.pid origin) :
    Reduces op count place ranks origin w args fits root := by
  unfold Reduces
  have horigin : origin ∈ ranks := List.mem_of_getElem? hroot
  have hmem := mem_colocated place hw
  have hnode : nodeOf place w = nodeOf place origin := node_of_pid hpid
  have hrank : ranks.idxOf w ≠ root := fun heq => hne ((SmpBcast.rank_eq_root hnodup hroot).mp heq.symm)
  have hself : w = originLeader place ranks origin := leader_eq (hnode ▸ hlead) hpid
  have hcolmem : origin ∈ colocated place ranks (place.pid w) := hpid ▸ mem_colocated place horigin
  have hcol := SmpBcast.one_lt_length hmem hcolmem hne
  have hnodes : otherNodesGroup place ranks origin w = none := if_neg (not_not.mpr hnode)
  have hgroup : rootOsprocGroup place ranks origin w =
      some ⟨.osprocColocatedComm, colocated place ranks (place.pid w)⟩ := (if_pos hpid).trans (groupOf_pos hcol hmem)
  rw [result_other hne]
  -- The reduction in the OS process of the root.
  have hlast : ∀ (b : Bufs α) (s : Nat → α), b.recvbuf = (args w).elsewhere → b.sendbuf = .buf (.mem true s) →
      (∀ i < count, s i = standing op origin args (ofLeaders place ranks origin) w i) →
      Follows fits (.ok (args w).elsewhere) (staged (reduceAct op count place ranks origin args w) 4 1)
        (fromOsproc op count place ranks origin w b) := by
    intro b s hrecv hsend hvalue
    rw [fromOsproc, rootOsproc_busy hgroup]
    refine reduce_give_level rootOsproc_act hgroup (fun heq => hne ((List.idxOf_inj hmem).mp heq))
      (contribution_buf hsend _ _) hvalue ?_
    rw [hrecv]
    rfl
  -- That on the node.
  have hrest : ∀ (b : Bufs α) (s : Nat → α), b.recvbuf = (args w).elsewhere → b.sendbuf = .buf (.mem true s) →
      (∀ i < count, s i = standing op origin args (ofRoots place ranks origin) w i) →
      ((subsOf place ranks w).nodeRootsComm ≠ none → b.tmpBuf = .mem true s ∧ b.didReduce = true) →
      (∃ written b', b.tmpBuf = .mem written (localcopy b' (args w).heap count)) →
      Follows fits (.ok (args w).elsewhere) (staged (reduceAct op count place ranks origin args w) 3 2)
        (fromNode op count place ranks origin w root b) := by
    intro b s hrecv hsend hvalue htmp ⟨written, b', hroom⟩
    cases hleaders : rootNodeGroup place ranks origin w with
    | none =>
      refine rootNode_pass hleaders (hlast b s hrecv hsend fun i hi => ?_)
      rw [hvalue i hi, standing, standing, ofLeaders_alone horigin hnode hleaders]
    | some c =>
      have hgroupOf : nodeGroup place ranks w = some c := (if_pos hnode).symm.trans hleaders
      obtain ⟨-, rfl, -⟩ := subComm_some hgroupOf
      have htarget : (leaders place ranks (nodeOf place w)).idxOf w =
          (leaders place ranks (nodeOf place w)).idxOf (originLeader place ranks origin) := by
        rw [← hself]
      have hnext : ∀ tmp, tmp = Memory.mem true (localcopy (sumOf op
            (standing op origin args (ofRoots place ranks origin)) (leaders place ranks (nodeOf place w)) w)
            (localcopy b' (args w).heap count) count) →
          Follows fits (.ok (args w).elsewhere) (staged (reduceAct op count place ranks origin args w) 4 1)
            (fromOsproc op count place ranks origin w { b with tmpBuf := tmp, sendbuf := .buf tmp }) := by
        rintro _ rfl
        refine hlast _ _ hrecv rfl fun i hi => ?_
        rw [localcopy_below hi]
        exact leaders_value horigin hnode hself i
      rw [fromNode, rootNode_busy hleaders horigin]
      dsimp only
      rw [if_neg (not_not.mpr htarget), if_pos hrank]
      by_cases hthrough : (subsOf place ranks w).nodeRootsComm ≠ none
      · obtain ⟨hbuf, hdid⟩ := htmp hthrough
        rw [if_pos hthrough, assert_pos hdid]
        exact reduce_root_level rootNodeGroup_grouped rootNode_act hleaders htarget hroom
          (contribution_inPlace hbuf) hvalue (hnext _ rfl)
      · rw [if_neg hthrough]
        exact reduce_root_level rootNodeGroup_grouped rootNode_act hleaders htarget hroom
          (contribution_buf hsend _ _) hvalue (hnext _ rfl)
  refine otherOsprocs_follows hw hne hnodup hroot hlead fun b hb => otherNodes_pass hnodes horigin ?_
  have hown := hb.own fun hand => hand.1 hpid
  obtain ⟨written, b', hroom⟩ := hb.room (.inl hcol)
  cases hroots : rootsGroup place ranks w with
  | none =>
    have hsub : (subsOf place ranks w).nodeRootsComm = none := subComm_none hroots
    refine amongRoots_pass hroots (hrest b _ hb.recvbuf hb.sendbuf (fun i hi => ?_)
      (fun hsome => absurd hsub hsome) ⟨written, b', hroom⟩)
    rw [hown i hi, standing, standing, ofRoots_alone horigin hnode hroots]
  | some c =>
    obtain ⟨-, rfl, hmemroots⟩ := subComm_some hroots
    have hfirst : w = originRoot place ranks origin := root_eq hmemroots hnode
    have htarget : (roots place ranks).idxOf w = (roots place ranks).idxOf (originRoot place ranks origin) := by
      rw [← hfirst]
    rw [amongRoots_busy hroots horigin]
    dsimp only
    rw [if_neg (not_not.mpr htarget), if_pos hrank, if_neg fun hand => hand.2 hpid.symm]
    refine reduce_root_level (rootsGroup_grouped place ranks) amongRoots_act hroots htarget hroom
      (contribution_buf hb.sendbuf _ _)
      (fun i hi => ?_) ?_
    · rw [hown i hi, standing, standing, ofNodes_own hnode]
    · refine hrest _ _ hb.recvbuf rfl (fun i hi => ?_) (fun _ => ⟨rfl, rfl⟩)
        ⟨true, sumOf op (standing op origin args (ofNodes place ranks origin)) (roots place ranks) w, ?_⟩
      · rw [localcopy_below hi]
        exact roots_value horigin hfirst i
      · rw [localcopy_twice]

structure Rooted (args : Args α) (count : Nat) (through : Prop) (v : Nat → α) (b : Bufs α) : Prop where
  recvbuf : ∃ written b', b.recvbuf = .mem written (localcopy b' args.recvbuf count)
  data : ∃ data, contribution true b.sendbuf b.recvbuf = .ok data ∧ ∀ i < count, data i = v i
  received : through → b.recvbuf = .mem true (localcopy v args.recvbuf count)

variable {v : Nat → α} {through : Prop} {b : Bufs α}

theorem Rooted.next {v' : Nat → α} (hb : Rooted (args w) count through v b)
    {group : Proc → Option CommId} (hgroup : Grouped group) {target : CommId → Nat} {x : Proc → Nat → α}
    {act : Nat → Act CommId Proc (Item α)} {k : Nat} (hact : act k = reduceLevel count group target x w) {c : CommId}
    (hthis : group w = some c) (htarget : c.members.idxOf w = target c) (hx : ∀ i < count, v i = x w i)
    (hsum : ∀ i, sumOf op x c.members w i = v' i) {next : Memory α → SmpProg α}
    (hnext : Follows fits r (staged act (k + 1) n) (next (.mem true (localcopy v' (args w).recvbuf count)))) :
    Follows fits r (staged act k (n + 1))
      (reduceImpl op count c (c.members.idxOf w) b.sendbuf b.recvbuf (target c) next) := by
  obtain ⟨written, b', hrecv⟩ := hb.recvbuf
  obtain ⟨data, hdata, hvalue⟩ := hb.data
  refine reduce_root_level hgroup hact hthis htarget hrecv hdata (fun i hi => (hvalue i hi).trans (hx i hi)) ?_
  rw [localcopy_twice, localcopy_congr fun i _ => hsum i]
  exact hnext

theorem Rooted.received' {args : Args α}
    (hrecv : b.recvbuf = .mem true (localcopy v args.recvbuf count)) (hsend : b.sendbuf = .inPlace) :
    Rooted args count through v b where
  recvbuf := ⟨true, v, hrecv⟩
  data := by
    refine ⟨localcopy v args.recvbuf count, ?_, fun i hi => localcopy_below hi⟩
    rw [hrecv, hsend]
    rfl
  received _ := hrecv

theorem Rooted.same {v' : Nat → α} {args : Args α} {through' : Prop}
    (hb : Rooted args count through v b) (hv : v' = v) (hthrough : through' → through) :
    Rooted args count through' v' b := by
  subst hv
  exact ⟨hb.recvbuf, hb.data, fun h => hb.received (hthrough h)⟩

theorem start_origin (hnodup : ranks.Nodup) (hroot : ranks[root]? = some origin) (sub : SubComms) :
    Rooted (args origin) count False (input origin args origin) (start (ranks.idxOf origin) root sub (args origin)) := by
  have hrank : ranks.idxOf origin = root := ((SmpBcast.rank_eq_root hnodup hroot).mpr rfl).symm
  have hrecv : (start (ranks.idxOf origin) root sub (args origin)).recvbuf =
      .mem (args origin).inPlace (args origin).recvbuf := if_pos hrank
  refine ⟨⟨(args origin).inPlace, (args origin).recvbuf, by rw [hrecv, localcopy_self]⟩,
    ⟨input origin args origin, ?_, fun _ _ => rfl⟩, False.elim⟩
  rw [hrecv, start, input]
  dsimp only
  by_cases hplace : (args origin).inPlace = true
  · rw [if_pos ⟨hrank, hplace⟩, if_pos ⟨rfl, hplace⟩, hplace]
    rfl
  · rw [if_neg fun hand => hplace hand.2, if_neg fun hand => hplace hand.2]
    rfl

theorem root_busy (hnodup : ranks.Nodup) (horigin : origin ∈ ranks)
    (haware : (roots place ranks).length ≠ ranks.length) :
    rootsGroup place ranks origin ≠ none ∨ rootNodeGroup place ranks origin origin ≠ none ∨
      rootOsprocGroup place ranks origin origin ≠ none := by
  by_contra hnot
  rw [not_or, not_or, not_not, not_not, not_not] at hnot
  obtain ⟨hroots, hleaders, hosproc⟩ := hnot
  have hmem := mem_colocated place horigin
  have hself : colocated place ranks (place.pid origin) = [origin] :=
    singleton_of_length hmem ((groupOf_eq_none hmem).mp ((if_pos rfl).symm.trans hosproc))
  have hall : ofAll place ranks origin origin = [origin] := by
    rw [ofAll_origin, hself, List.flatMap_singleton, ofLeaders_alone horigin rfl hleaders,
      ofRoots_alone horigin rfl hroots, ofOsprocs_own rfl]
  have hperm : (ofAll place ranks origin origin).Perm ranks := ofAll_perm hnodup horigin
  rw [hall] at hperm
  have hlen := hperm.length_eq
  have hpos : 0 < (roots place ranks).length := List.length_pos_of_mem (SmpBcast.nodeRoot_roots place horigin)
  have hle : (roots place ranks).length ≤ ranks.length :=
    List.Subperm.length_le (List.subperm_of_subset (roots_nodup place) fun v hv => mem_ranks_of_roots place hv)
  rw [List.length_singleton] at hlen
  omega

theorem root_follows [Std.Associative op] [Std.Commutative op] (hnodup : ranks.Nodup)
    (hroot : ranks[root]? = some origin) (haware : (roots place ranks).length ≠ ranks.length) :
    Reduces op count place ranks origin origin args fits root := by
  unfold Reduces
  have horigin : origin ∈ ranks := List.mem_of_getElem? hroot
  have hmem := mem_colocated place horigin
  have hrank : ranks.idxOf origin = root := ((SmpBcast.rank_eq_root hnodup hroot).mpr rfl).symm
  have hosprocs : otherOsprocsGroup place ranks origin origin = none := if_neg (not_not.mpr rfl)
  have hnodes : otherNodesGroup place ranks origin origin = none := if_neg (not_not.mpr rfl)
  have hstart : Rooted (args origin) count False (standing op origin args (ofNodes place ranks origin) origin)
      (start (ranks.idxOf origin) root (subsOf place ranks origin) (args origin)) := by
    refine (start_origin hnodup hroot _).same ?_ id
    rw [standing, ofNodes_own rfl, ofOsprocs_own rfl]
    rfl
  have hlast : ∀ b, Rooted (args origin) count
      (rootsGroup place ranks origin ≠ none ∨ rootNodeGroup place ranks origin origin ≠ none)
      (standing op origin args (ofLeaders place ranks origin) origin) b →
      Follows fits (result op count ranks origin args origin)
        (staged (reduceAct op count place ranks origin args origin) 4 1)
        (fromOsproc op count place ranks origin origin b) := by
    intro b hb
    have hresult : result op count ranks origin args origin =
        .ok (.mem true (localcopy (sumOf op (input origin args) (ofAll place ranks origin origin) origin)
          (args origin).recvbuf count)) := by
      rw [result, if_pos rfl, localcopy_congr fun i _ => (standing_all hnodup horigin i).symm]
    cases hgroup : rootOsprocGroup place ranks origin origin with
    | none =>
      have hself : colocated place ranks (place.pid origin) = [origin] :=
        singleton_of_length hmem ((groupOf_eq_none hmem).mp ((if_pos rfl).symm.trans hgroup))
      have hbusy : rootsGroup place ranks origin ≠ none ∨ rootNodeGroup place ranks origin origin ≠ none := by
        rcases root_busy hnodup horigin haware with h | h | h
        · exact .inl h
        · exact .inr h
        · exact absurd hgroup h
      refine rootOsproc_pass hgroup ?_
      rw [hb.received hbusy, hresult, ofAll_origin, hself, List.flatMap_singleton]
      rfl
    | some c =>
      have hosproc : osprocGroup place ranks origin = some c := (if_pos rfl).symm.trans hgroup
      obtain ⟨-, rfl, -⟩ := subComm_some hosproc
      rw [fromOsproc, rootOsproc_busy hgroup]
      refine hb.next rootOsprocGroup_grouped rootOsproc_act hgroup rfl (fun _ _ => rfl)
        (fun i => standing_merged (mem_ofLeaders horigin) hmem i) ?_
      rw [hresult, ofAll_origin]
      rfl
  have hrest : ∀ b, Rooted (args origin) count (rootsGroup place ranks origin ≠ none)
      (standing op origin args (ofRoots place ranks origin) origin) b →
      Follows fits (result op count ranks origin args origin)
        (staged (reduceAct op count place ranks origin args origin) 3 2)
        (fromNode op count place ranks origin origin root b) := by
    intro b hb
    cases hgroup : rootNodeGroup place ranks origin origin with
    | none =>
      refine rootNode_pass hgroup (hlast b (hb.same ?_ fun h => h.resolve_right (not_not.mpr hgroup)))
      rw [standing, standing, ofLeaders_alone horigin rfl hgroup]
    | some c =>
      have hnode : nodeGroup place ranks origin = some c := (if_pos rfl).symm.trans hgroup
      obtain ⟨-, rfl, hlead⟩ := subComm_some hnode
      have hself : origin = originLeader place ranks origin := leader_eq hlead rfl
      have htarget : (leaders place ranks (nodeOf place origin)).idxOf origin =
          (leaders place ranks (nodeOf place origin)).idxOf (originLeader place ranks origin) := by
        rw [← hself]
      rw [fromNode, rootNode_busy hgroup horigin]
      dsimp only
      rw [if_neg (not_not.mpr htarget), if_neg (not_not.mpr hrank)]
      exact hb.next rootNodeGroup_grouped rootNode_act hgroup htarget (fun _ _ => rfl)
        (fun i => leaders_value horigin rfl hself i) (hlast _ (Rooted.received' rfl rfl))
  refine otherOsprocs_pass hosprocs (otherNodes_pass hnodes horigin ?_)
  cases hgroup : rootsGroup place ranks origin with
  | none =>
    refine amongRoots_pass hgroup (hrest _ (hstart.same ?_ fun h => absurd hgroup h))
    rw [standing, standing, ofRoots_alone horigin rfl hgroup, ofNodes_own rfl]
  | some c =>
    obtain ⟨-, rfl, hmemroots⟩ := subComm_some hgroup
    have hfirst : origin = originRoot place ranks origin := root_eq hmemroots rfl
    have htarget : (roots place ranks).idxOf origin = (roots place ranks).idxOf (originRoot place ranks origin) := by
      rw [← hfirst]
    rw [amongRoots_busy hgroup horigin]
    dsimp only
    rw [if_neg (not_not.mpr htarget), if_neg (not_not.mpr hrank)]
    exact hstart.next (rootsGroup_grouped place ranks) amongRoots_act hgroup htarget (fun _ _ => rfl)
      (fun i => roots_value horigin hfirst i) (hrest _ (Rooted.received' rfl rfl))

end Processes

section Whole
variable {α : Type} (op : α → α → α) (count : Nat) (ranks : List Proc) (origin : Proc) (args : Proc → Args α)

def wholeAct (w : Proc) : Nat → Act CommId Proc (Item α)
  | 0 => reduceLevel count (wholeGroup ranks) (fun c => c.members.idxOf origin) (input origin args) w
  | _ => .idle

variable {op count ranks origin args} {place : Placement} {w : Proc} {root : Nat}
variable {fits : List (Item α) → Inp CommId Proc → Prop}

theorem whole_plan : Plan ranks.toFinset procsOf fun w => staged (wholeAct count ranks origin args w) 0 1 := by
  refine levels_plan (fun k hk => ?_) fun p hp k hk => ?_
  · obtain rfl : k = 0 := by omega
    exact reduceLevel_agree (wholeGroup_grouped ranks) _
  · obtain rfl : k = 0 := by omega
    exact reduceLevel_none (if_neg (mt List.mem_toFinset.mpr hp)) _

theorem whole_follows [Std.Associative op] (hnodup : ranks.Nodup) (hroot : ranks[root]? = some origin)
    (hw : w ∈ ranks) : Follows fits (result op count ranks origin args w)
      (staged (wholeAct count ranks origin args w) 0 1)
      (reduceImpl op count ⟨.comm, ranks⟩ (ranks.idxOf w)
        (start (ranks.idxOf w) root ⟨none, none, none⟩ (args w)).sendbuf
        (start (ranks.idxOf w) root ⟨none, none, none⟩ (args w)).recvbuf root fun recvbuf =>
        .done (.ok recvbuf)) := by
  have hact : wholeAct count ranks origin args w 0 =
      reduceLevel count (wholeGroup ranks) (fun c => c.members.idxOf origin) (input origin args) w := rfl
  have hgroup : wholeGroup ranks w = some ⟨.comm, ranks⟩ := if_pos hw
  have htarget : root = ranks.idxOf origin := (SmpBcast.rank_eq_root hnodup hroot).mpr rfl
  by_cases hself : w = origin
  · subst hself
    have hstart : Rooted (args w) count False (input w args w)
        (start (ranks.idxOf w) root ⟨none, none, none⟩ (args w)) := start_origin hnodup hroot _
    rw [htarget] at hstart ⊢
    refine hstart.next (wholeGroup_grouped ranks) hact hgroup rfl (fun _ _ => rfl)
      (fun i => sumOf_eq hw (total_allSum hw i)) ?_
    rw [result, if_pos rfl]
    rfl
  · rw [start_other hself hnodup hroot, result_other hself, htarget]
    refine reduce_give_level hact hgroup (fun heq => hself ((List.idxOf_inj hw).mp heq)) rfl (fun i _ => ?_) rfl
    rw [input_other hself]

theorem outside_follows {prog : SmpProg α} {plan : Proc → List (Op CommId Proc (Item α))}
    (hplan : Plan ranks.toFinset procsOf plan) (horigin : origin ∈ ranks) (hw : w ∉ ranks) :
    Follows fits (result op count ranks origin args w) (plan w)
      (if w ∈ ranks then prog else .done (.ok (recv origin args w))) := by
  have hne : w ≠ origin := by
    rintro rfl
    exact hw horigin
  rw [if_neg hw, hplan.outside w (mt List.mem_toFinset.mp hw), result, if_neg hne]
  rfl

theorem reduceSmp_follows [Std.Associative op] [Std.Commutative op] (hnodup : ranks.Nodup)
    (hroot : ranks[root]? = some origin) (haware : (roots place ranks).length ≠ ranks.length) (hw : w ∈ ranks) :
    Reduces op count place ranks origin w args fits root := by
  by_cases hself : w = origin
  · subst hself
    exact root_follows hnodup hroot haware
  · by_cases hlead : w ∈ leaders place ranks (nodeOf place w)
    · by_cases hnode : nodeOf place w = nodeOf place origin
      · by_cases hpid : place.pid w = place.pid origin
        · exact leader_follows hnodup hroot hw hlead hself hpid
        · exact sameNode_follows hnodup hroot hw hlead hnode hpid
      · exact otherNode_follows hnodup hroot hw hlead hnode
    · exact member_follows hnodup hroot hw hself hlead

theorem reduceAct_same (k : Nat) : SameCalls fun w => reduceAct op count place ranks origin args w k := by
  match k with
  | 0 => exact calling_same otherOsprocsGroup_grouped
  | 1 => exact calling_same otherNodesGroup_grouped
  | 2 => exact calling_same (rootsGroup_grouped place ranks)
  | 3 => exact calling_same rootNodeGroup_grouped
  | 4 => exact calling_same rootOsprocGroup_grouped
  | k + 5 => exact sameCalls_nothing fun _ _ _ _ h => nomatch h

end Whole

/-- The root gets the combination of all inputs, whatever the placement, the root and the order of delivery,
and all members of a communicator make the same calls on it. -/
theorem reduce_over_hierarchy {α : Type} (op : α → α → α) [Std.Associative op] (isCommutative : Bool)
    (hcomm : isCommutative = true → ∀ a b, op a b = op b a) (cv : Cvars) (place : Placement) (ranks : List Proc)
    (hnodup : ranks.Nodup) (root : Nat) (origin : Proc) (hroot : ranks[root]? = some origin) (count typeSize : Nat)
    (hcount : 0 < count) (args : Proc → Args α) :
    let prog := fun w =>
      if w ∈ ranks then reduceIntra op count cv isCommutative typeSize root place ranks (args w) w
      else .done (.ok (recv origin args w))
    Computes procsOf (fun msg inp => msg.length ≤ inp.cap) prog (result op count ranks origin args) ∧
      Joined prog := by
  have horigin : origin ∈ ranks := List.mem_of_getElem? hroot
  by_cases hsmp : (roots place ranks).length ≠ ranks.length ∧ allowsSmp count cv isCommutative typeSize = true
  · have hop : Std.Commutative op := by
      refine ⟨hcomm ?_⟩
      have hallow := hsmp.2
      unfold allowsSmp at hallow
      simp only [Bool.and_eq_true] at hallow
      exact hallow.1.2
    have hplan : Plan ranks.toFinset procsOf fun w => staged (reduceAct op count place ranks origin args w) 0 5 :=
      reduce_plan
    have hfollows : ∀ w, Follows (fun msg inp => msg.length ≤ inp.cap) (result op count ranks origin args w)
        (staged (reduceAct op count place ranks origin args w) 0 5)
        (if w ∈ ranks then reduceIntra op count cv isCommutative typeSize root place ranks (args w) w
          else .done (.ok (recv origin args w))) := by
      intro w
      by_cases hw : w ∈ ranks
      · rw [if_pos hw, reduceIntra, if_neg (by omega), commit_eq place hnodup hw, if_neg hsmp.1,
          SmpBcast.root_lookup hnodup hroot]
        dsimp only
        rw [if_pos hsmp.2]
        exact reduceSmp_follows hnodup hroot hsmp.1 hw
      · exact outside_follows hplan horigin hw
    exact ⟨hplan.computes (fun _ _ h => h) hfollows,
      joined hplan (fun k _ => reduceAct_same k) (fun _ _ h => h) hfollows⟩
  · have hplan : Plan ranks.toFinset procsOf fun w => staged (wholeAct count ranks origin args w) 0 1 := whole_plan
    have hfollows : ∀ w, Follows (fun msg inp => msg.length ≤ inp.cap) (result op count ranks origin args w)
        (staged (wholeAct count ranks origin args w) 0 1)
        (if w ∈ ranks then reduceIntra op count cv isCommutative typeSize root place ranks (args w) w
          else .done (.ok (recv origin args w))) := by
      intro w
      by_cases hw : w ∈ ranks
      · have hwhole : reduceIntra op count cv isCommutative typeSize root place ranks (args w) w =
            reduceImpl op count ⟨.comm, ranks⟩ (ranks.idxOf w)
              (start (ranks.idxOf w) root ⟨none, none, none⟩ (args w)).sendbuf
              (start (ranks.idxOf w) root ⟨none, none, none⟩ (args w)).recvbuf root fun recvbuf =>
              .done (.ok recvbuf) := by
          rw [reduceIntra, if_neg (by omega), commit_eq place hnodup hw, SmpBcast.root_lookup hnodup hroot]
          by_cases haware : (roots place ranks).length = ranks.length
          · rw [if_pos haware]
          · rw [if_neg haware]
            exact if_neg fun hallow => hsmp ⟨haware, hallow⟩
        rw [if_pos hw, hwhole]
        exact whole_follows hnodup hroot hw
      · exact outside_follows hplan horigin hw
    refine ⟨hplan.computes (fun _ _ h => h) hfollows, joined hplan (fun k hk => ?_) (fun _ _ h => h) hfollows⟩
    obtain rfl : k = 0 := by omega
    exact calling_same (wholeGroup_grouped ranks)

theorem reduce_over_hierarchy_sum :
    let place : Placement := ⟨8, 4, (· / 2), (· / 2), fun _ h => Nat.div_lt_of_lt_mul h⟩
    let args : Proc → Args Nat := fun w => ⟨fun i => w + i, w == 7, fun i => w * i, .null, fun _ => 9⟩
    let prog := fun w =>
      if w ∈ [0, 1, 2, 3, 4, 5, 6, 7] then
        reduceIntra (· + ·) 2 ⟨true, true, 0⟩ true 4 7 place [0, 1, 2, 3, 4, 5, 6, 7] (args w) w
      else .done (.ok (recv 7 args w))
    Computes procsOf (fun msg inp => msg.length ≤ inp.cap) prog
      (result (· + ·) 2 [0, 1, 2, 3, 4, 5, 6, 7] 7 args) ∧ Joined prog :=
  reduce_over_hierarchy (fun a b : Nat => a + b) true (fun _ => Nat.add_comm) ⟨true, true, 0⟩
    ⟨8, 4, (· / 2), (· / 2), fun _ h => Nat.div_lt_of_lt_mul h⟩ [0, 1, 2, 3, 4, 5, 6, 7] (by decide) 7 7 rfl 2 4 (by decide)
    fun w => ⟨fun i => w + i, w == 7, fun i => w * i, .null, fun _ => 9⟩

end FgMpi.Coll.SmpReduce
