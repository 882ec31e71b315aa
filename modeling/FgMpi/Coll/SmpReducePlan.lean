import FgMpi.Coll.SmpReduce

/-! The plan of a reduction over the hierarchy. -/

namespace FgMpi.Coll.SmpReduce
open Comm.NestedMaps Hierarchy SmpCalls Machine.Dialogues Machine.Folds
open SmpBcast (Kind CommId originLeader originRoot)
open Buffers (localcopy)

def merged (into : Proc → Prop) [DecidablePred into] (members held : Proc → List Proc) (w : Proc) : List Proc :=
  if into w then (members w).flatMap held else held w

theorem mem_merged {into : Proc → Prop} [DecidablePred into] {members held : Proc → List Proc}
    (hinto : ∀ w, into w → w ∈ members w) (hheld : ∀ w, w ∈ held w) (w : Proc) : w ∈ merged into members held w := by
  unfold merged
  split
  · rename_i h
    exact List.mem_flatMap.mpr ⟨w, hinto w h, hheld w⟩
  · exact hheld w

section Held
variable (place : Placement) (ranks : List Proc) (origin : Proc)

def ofSelf (w : Proc) : List Proc := [w]

def ofOsprocs : Proc → List Proc :=
  merged (fun w => place.pid w ≠ place.pid origin ∧ w ∈ leaders place ranks (nodeOf place w))
    (fun w => colocated place ranks (place.pid w)) ofSelf

def ofNodes : Proc → List Proc :=
  merged (fun w => nodeOf place w ≠ nodeOf place origin ∧ w ∈ roots place ranks)
    (fun w => leaders place ranks (nodeOf place w)) (ofOsprocs place ranks origin)

def ofRoots : Proc → List Proc :=
  merged (· = originRoot place ranks origin) (fun _ => roots place ranks) (ofNodes place ranks origin)

def ofLeaders : Proc → List Proc :=
  merged (· = originLeader place ranks origin) (fun _ => leaders place ranks (nodeOf place origin))
    (ofRoots place ranks origin)

def ofAll : Proc → List Proc :=
  merged (· = origin) (fun _ => colocated place ranks (place.pid origin)) (ofLeaders place ranks origin)

def otherOsprocsGroup (w : Proc) : Option CommId :=
  if place.pid w ≠ place.pid origin then osprocGroup place ranks w else none

def otherNodesGroup (w : Proc) : Option CommId :=
  if nodeOf place w ≠ nodeOf place origin then nodeGroup place ranks w else none

def rootNodeGroup (w : Proc) : Option CommId :=
  if nodeOf place w = nodeOf place origin then nodeGroup place ranks w else none

def rootOsprocGroup (w : Proc) : Option CommId :=
  if place.pid w = place.pid origin then osprocGroup place ranks w else none

variable {place ranks origin}

variable {w v : Proc}

theorem osprocGroup_pid {c : CommId} (h : osprocGroup place ranks w = some c)
    (hv : v ∈ procsOf c) : place.pid v = place.pid w := by
  obtain ⟨-, -, rfl⟩ := groupOf_some h
  simpa using (List.mem_filter.mp (List.mem_toFinset.mp hv)).2

theorem nodeGroup_node {c : CommId} (h : nodeGroup place ranks w = some c)
    (hv : v ∈ procsOf c) : nodeOf place v = nodeOf place w := by
  obtain ⟨-, -, rfl⟩ := groupOf_some h
  exact (mem_of_mem_leaders place (List.mem_toFinset.mp hv)).2

theorem otherOsprocsGroup_grouped : Grouped (otherOsprocsGroup place ranks origin) :=
  (osprocGroup_grouped place ranks).restrict fun w c h v hv => by rw [osprocGroup_pid h hv]

theorem otherNodesGroup_grouped : Grouped (otherNodesGroup place ranks origin) :=
  (nodeGroup_grouped place ranks).restrict fun w c h v hv => by rw [nodeGroup_node h hv]

theorem rootNodeGroup_grouped : Grouped (rootNodeGroup place ranks origin) :=
  (nodeGroup_grouped place ranks).restrict fun w c h v hv => by rw [nodeGroup_node h hv]

theorem rootOsprocGroup_grouped : Grouped (rootOsprocGroup place ranks origin) :=
  (osprocGroup_grouped place ranks).restrict fun w c h v hv => by rw [osprocGroup_pid h hv]

theorem mem_ofOsprocs (w : Proc) : w ∈ ofOsprocs place ranks origin w :=
  mem_merged (fun _ h => mem_colocated place (mem_of_mem_leaders place h.2).1) (fun _ => List.mem_cons_self) w

theorem mem_ofNodes (w : Proc) : w ∈ ofNodes place ranks origin w :=
  mem_merged (fun _ h => SmpBcast.roots_leaders place h.2) mem_ofOsprocs w

theorem mem_ofRoots (horigin : origin ∈ ranks) (w : Proc) : w ∈ ofRoots place ranks origin w := by
  refine mem_merged (fun v h => ?_) mem_ofNodes w
  rw [h]
  exact SmpBcast.nodeRoot_roots place horigin

theorem mem_ofLeaders (horigin : origin ∈ ranks) (w : Proc) : w ∈ ofLeaders place ranks origin w := by
  refine mem_merged (fun v h => ?_) (mem_ofRoots horigin) w
  rw [h]
  exact SmpBcast.leaderOf_leaders place horigin

theorem count_changed {α κ : Type} [DecidableEq α] (x : α) {l : List κ} (hnodup : l.Nodup) {a : κ} (ha : a ∈ l)
    (f g : κ → List α) (h : ∀ v ∈ l, v ≠ a → (f v).count x = (g v).count x) :
    (l.flatMap f).count x + (g a).count x = (l.flatMap g).count x + (f a).count x := by
  induction l with
  | nil => exact nomatch ha
  | cons v l ih =>
    obtain ⟨hv, hl⟩ := List.nodup_cons.mp hnodup
    rw [List.flatMap_cons, List.flatMap_cons, List.count_append, List.count_append]
    by_cases hself : v = a
    · subst hself
      have hsame : (l.flatMap f).count x = (l.flatMap g).count x := by
        rw [List.count_flatMap, List.count_flatMap]
        refine congrArg List.sum (List.map_congr_left fun u hu => ?_)
        refine h u (List.mem_cons_of_mem _ hu) ?_
        rintro rfl
        exact hv hu
      omega
    · have hrest := ih hl ((List.mem_cons.mp ha).resolve_left (Ne.symm hself))
        fun u hu => h u (List.mem_cons_of_mem _ hu)
      have hhead := h v List.mem_cons_self hself
      omega

theorem merged_pos {into : Proc → Prop} [DecidablePred into] {members h : Proc → List Proc}
    (hw : into w) : merged into members h w = (members w).flatMap h := if_pos hw

theorem merged_neg {into : Proc → Prop} [DecidablePred into] {members h : Proc → List Proc}
    (hw : ¬ into w) : merged into members h w = h w := if_neg hw

theorem leader_eq (hv : v ∈ leaders place ranks (nodeOf place origin))
    (hpid : place.pid v = place.pid origin) : v = originLeader place ranks origin := by
  obtain ⟨hmem, hnode⟩ := mem_of_mem_leaders place hv
  rw [← hnode] at hv
  have hself := (SmpBcast.mem_leaders_iff_eq place hmem).mp hv
  rw [hpid] at hself
  exact hself.symm

theorem root_eq (hv : v ∈ roots place ranks) (hnode : nodeOf place v = nodeOf place origin) :
    v = originRoot place ranks origin := by
  have hself := (SmpBcast.mem_roots_iff_eq place (mem_ranks_of_roots place hv)).mp hv
  rw [hnode] at hself
  exact hself.symm

theorem node_of_pid (hpid : place.pid v = place.pid origin) : nodeOf place v = nodeOf place origin := by
  rw [nodeOf, hpid, nodeOf]

theorem ofOsprocs_own (hpid : place.pid v = place.pid origin) : ofOsprocs place ranks origin v = [v] :=
  merged_neg fun hand => hand.1 hpid

theorem ofOsprocs_other (hv : v ∈ leaders place ranks (nodeOf place v))
    (hpid : place.pid v ≠ place.pid origin) :
    ofOsprocs place ranks origin v = colocated place ranks (place.pid v) := by
  rw [ofOsprocs, merged_pos ⟨hpid, hv⟩]
  exact List.flatMap_singleton' _

theorem ofNodes_own (hnode : nodeOf place v = nodeOf place origin) :
    ofNodes place ranks origin v = ofOsprocs place ranks origin v := merged_neg fun hand => hand.1 hnode

theorem ofRoots_other (hv : v ≠ originRoot place ranks origin) :
    ofRoots place ranks origin v = ofNodes place ranks origin v := if_neg hv

theorem ofRoots_root : ofRoots place ranks origin (originRoot place ranks origin) =
    (roots place ranks).flatMap (ofNodes place ranks origin) := if_pos rfl

theorem ofLeaders_other (hv : v ≠ originLeader place ranks origin) :
    ofLeaders place ranks origin v = ofRoots place ranks origin v := if_neg hv

theorem ofLeaders_leader : ofLeaders place ranks origin (originLeader place ranks origin) =
    (leaders place ranks (nodeOf place origin)).flatMap (ofRoots place ranks origin) := if_pos rfl

theorem ofAll_origin : ofAll place ranks origin origin =
    (colocated place ranks (place.pid origin)).flatMap (ofLeaders place ranks origin) := if_pos rfl

theorem ofNodes_other (hnodup : ranks.Nodup) (hv : v ∈ roots place ranks)
    (hnode : nodeOf place v ≠ nodeOf place origin) :
    (ofNodes place ranks origin v).Perm (onNode place ranks v) := by
  have hparts : (leaders place ranks (nodeOf place v)).flatMap (ofOsprocs place ranks origin) =
      (leaders place ranks (nodeOf place v)).flatMap
        fun l => (onNode place ranks v).filter (place.pid · = place.pid l) := by
    refine List.flatMap_congr fun l hl => ?_
    obtain ⟨-, hsame⟩ := mem_of_mem_leaders place hl
    have hlead := hl
    rw [← hsame] at hlead
    rw [ofOsprocs_other hlead fun hpid => hnode (hsame.symm.trans (node_of_pid hpid)), onNode, ← hsame]
    exact (leaders_filter place).symm
  rw [ofNodes, merged_pos ⟨hnode, hv⟩, hparts]
  exact firsts_perm place.pid (hnodup.filter _)

theorem ofAll_perm (hnodup : ranks.Nodup) (horigin : origin ∈ ranks) :
    (ofAll place ranks origin origin).Perm ranks := by
  have hlead : originLeader place ranks origin ∈ leaders place ranks (nodeOf place origin) :=
    SmpBcast.leaderOf_leaders place horigin
  have hroot : originRoot place ranks origin ∈ leaders place ranks (nodeOf place origin) :=
    SmpBcast.nodeRoot_leaders place horigin
  have hpid : place.pid (originLeader place ranks origin) = place.pid origin := SmpBcast.pid_leaderOf place horigin
  have hown : ∀ v ∈ leaders place ranks (nodeOf place origin), nodeOf place v = nodeOf place origin :=
    fun v hv => (mem_of_mem_leaders place hv).2
  have hsame : onNode place ranks (originRoot place ranks origin) = onNode place ranks origin := by
    rw [onNode, onNode, hown _ hroot]
  have hpart : ∀ v ∈ leaders place ranks (nodeOf place origin), v ≠ originLeader place ranks origin →
      ofOsprocs place ranks origin v = colocated place ranks (place.pid v) := by
    intro v hv hne
    have hself := hv
    rw [← hown v hv] at hself
    exact ofOsprocs_other hself fun heq => hne (leader_eq hv heq)
  have hcol : ∀ v ∈ leaders place ranks (nodeOf place origin),
      (onNode place ranks origin).filter (place.pid · = place.pid v) = colocated place ranks (place.pid v) := by
    intro v hv
    rw [onNode, ← hown v hv]
    exact leaders_filter place
  refine List.perm_iff_count.mpr fun x => ?_
  -- In the root's OS process only the leader has more than its own.
  have hosproc : ((colocated place ranks (place.pid origin)).flatMap (ofLeaders place ranks origin)).count x +
      [originLeader place ranks origin].count x =
      ((colocated place ranks (place.pid origin)).flatMap fun v => [v]).count x +
        (ofLeaders place ranks origin (originLeader place ranks origin)).count x := by
    refine count_changed x (hnodup.filter _) (SmpBcast.leaderOf_colocated place horigin) (ofLeaders place ranks origin)
      (fun v => [v]) fun v hv hne => ?_
    have hvpid : place.pid v = place.pid origin := by simpa using (List.mem_filter.mp hv).2
    have hnot : v ≠ originRoot place ranks origin := by
      rintro rfl
      exact hne (leader_eq hroot hvpid)
    rw [ofLeaders_other hne, ofRoots_other hnot, ofNodes_own (node_of_pid hvpid), ofOsprocs_own hvpid]
  -- On the root's node only the root of the node has what came from the other nodes.
  have hnode : ((leaders place ranks (nodeOf place origin)).flatMap (ofRoots place ranks origin)).count x +
      (ofOsprocs place ranks origin (originRoot place ranks origin)).count x =
      ((leaders place ranks (nodeOf place origin)).flatMap (ofOsprocs place ranks origin)).count x +
        (ofRoots place ranks origin (originRoot place ranks origin)).count x := by
    refine count_changed x (leaders_nodup place _) hroot _ _ fun v hv hne => ?_
    rw [ofRoots_other hne, ofNodes_own (hown v hv)]
  have hroots : ((roots place ranks).flatMap (ofNodes place ranks origin)).count x +
      (onNode place ranks origin).count x =
      ((roots place ranks).flatMap (onNode place ranks)).count x +
        (ofOsprocs place ranks origin (originRoot place ranks origin)).count x := by
    rw [← hsame, ← ofNodes_own (hown _ hroot)]
    refine count_changed x (roots_nodup place) (SmpBcast.nodeRoot_roots place horigin) _ _ fun v hv hne => ?_
    exact (ofNodes_other hnodup hv fun heq => hne (root_eq hv heq)).count_eq x
  have hleaders : ((leaders place ranks (nodeOf place origin)).flatMap (ofOsprocs place ranks origin)).count x +
      (colocated place ranks (place.pid origin)).count x =
      ((leaders place ranks (nodeOf place origin)).flatMap fun l => colocated place ranks (place.pid l)).count x +
        [originLeader place ranks origin].count x := by
    have halone : ofOsprocs place ranks origin (originLeader place ranks origin) =
        [originLeader place ranks origin] := ofOsprocs_own hpid
    rw [← halone, ← hpid]
    refine count_changed x (leaders_nodup place _) hlead (ofOsprocs place ranks origin)
      (fun l => colocated place ranks (place.pid l)) fun v hv hne => ?_
    rw [hpart v hv hne]
  have hparts : ((leaders place ranks (nodeOf place origin)).flatMap
      fun l => colocated place ranks (place.pid l)).count x = (onNode place ranks origin).count x := by
    rw [← List.flatMap_congr hcol]
    exact (firsts_perm place.pid (hnodup.filter _)).count_eq x
  have hnodes : ((roots place ranks).flatMap (onNode place ranks)).count x = ranks.count x :=
    (firsts_perm (nodeOf place) hnodup).count_eq x
  rw [List.flatMap_singleton', ofLeaders_leader] at hosproc
  rw [ofRoots_root] at hnode
  rw [ofAll_origin]
  omega

end Held

section Plan
variable {α : Type} (op : α → α → α) (count : Nat) (place : Placement) (ranks : List Proc) (origin : Proc)
variable (args : Proc → Args α)

def input (w : Proc) : Nat → α := if w = origin ∧ (args w).inPlace = true then (args w).recvbuf else (args w).sendbuf

def standing (held : Proc → List Proc) (w : Proc) : Nat → α := sumOf op (input origin args) (held w) w

def reduceAct (w : Proc) : Nat → Act CommId Proc (Item α)
  | 0 => reduceLevel count (otherOsprocsGroup place ranks origin) (fun _ => 0) (standing op origin args ofSelf) w
  | 1 =>
    reduceLevel count (otherNodesGroup place ranks origin) (fun _ => 0)
      (standing op origin args (ofOsprocs place ranks origin)) w
  | 2 =>
    reduceLevel count (rootsGroup place ranks) (fun c => c.members.idxOf (originRoot place ranks origin))
      (standing op origin args (ofNodes place ranks origin)) w
  | 3 =>
    reduceLevel count (rootNodeGroup place ranks origin)
      (fun c => c.members.idxOf (originLeader place ranks origin))
      (standing op origin args (ofRoots place ranks origin)) w
  | 4 =>
    reduceLevel count (rootOsprocGroup place ranks origin) (fun c => c.members.idxOf origin)
      (standing op origin args (ofLeaders place ranks origin)) w
  | _ => .idle

def recv (w : Proc) : Memory α := if w = origin then .mem (args w).inPlace (args w).recvbuf else (args w).elsewhere

def result (w : Proc) : Except Fault (Memory α) :=
  if w = origin then .ok (.mem true (localcopy (allSum op ranks (input origin args)) (args w).recvbuf count))
  else .ok (recv origin args w)

variable {op count place ranks origin args} {w : Proc}

theorem reduceAct_agree (k : Nat) : LevelAgree procsOf fun w => reduceAct op count place ranks origin args w k := by
  match k with
  | 0 => exact reduceLevel_agree otherOsprocsGroup_grouped _
  | 1 => exact reduceLevel_agree otherNodesGroup_grouped _
  | 2 => exact reduceLevel_agree (rootsGroup_grouped place ranks) _
  | 3 => exact reduceLevel_agree rootNodeGroup_grouped _
  | 4 => exact reduceLevel_agree rootOsprocGroup_grouped _
  | k + 5 => exact Agree.level (fun _ _ _ _ => rfl) fun _ _ _ _ h => (nomatch h)

theorem reduceAct_outside (hw : w ∉ ranks) (k : Nat) : reduceAct op count place ranks origin args w k = .idle := by
  have hosproc : osprocGroup place ranks w = none := osprocGroup_outside hw
  have hnode : nodeGroup place ranks w = none := nodeGroup_outside hw
  match k with
  | 0 => exact reduceLevel_none (by rw [otherOsprocsGroup, hosproc, ite_self]) _
  | 1 => exact reduceLevel_none (by rw [otherNodesGroup, hnode, ite_self]) _
  | 2 => exact reduceLevel_none (rootsGroup_outside hw) _
  | 3 => exact reduceLevel_none (by rw [rootNodeGroup, hnode, ite_self]) _
  | 4 => exact reduceLevel_none (by rw [rootOsprocGroup, hosproc, ite_self]) _
  | k + 5 => rfl

theorem reduce_plan : Plan ranks.toFinset procsOf fun w => staged (reduceAct op count place ranks origin args w) 0 5 :=
  levels_plan (fun k _ => reduceAct_agree k) fun _ hp k _ => reduceAct_outside (mt List.mem_toFinset.mpr hp) k

theorem standing_self (w : Proc) : standing op origin args ofSelf w = input origin args w := rfl

theorem standing_merged [Std.Associative op] {members : List Proc} {held : Proc → List Proc}
    (hheld : ∀ v, v ∈ held v) (hw : w ∈ members) (i : Nat) :
    sumOf op (standing op origin args held) members w i =
      sumOf op (input origin args) (members.flatMap held) w i := by
  refine sumOf_eq hw ?_
  have hparts : ∀ v ∈ members, total op ((held v).map fun u => input origin args u i) =
      some (standing op origin args held v i) := fun v _ => total_sumOf (hheld v) i
  rw [← total_flatMap op hparts, ← List.map_flatMap]
  exact total_sumOf (List.mem_flatMap.mpr ⟨w, hw, hheld w⟩) i

theorem standing_all [Std.Associative op] [Std.Commutative op] (hnodup : ranks.Nodup) (horigin : origin ∈ ranks)
    (i : Nat) : sumOf op (input origin args) (ofAll place ranks origin origin) origin i =
      allSum op ranks (input origin args) i := by
  have hperm : (ofAll place ranks origin origin).Perm ranks := ofAll_perm hnodup horigin
  refine sumOf_eq (hperm.mem_iff.mpr horigin) ?_
  rw [total_perm op (hperm.map _)]
  exact total_allSum horigin i

end Plan

def subsOf (place : Placement) (ranks : List Proc) (w : Proc) : SubComms where
  nodeComm := subComm (leaders place ranks (nodeOf place w)) w
  nodeRootsComm := subComm (roots place ranks) w
  osprocColocatedComm := subComm (colocated place ranks (place.pid w)) w

theorem subComm_none {kind : Kind} {members : List Proc} {w : Proc} (h : groupOf kind members w = none) :
    subComm members w = none := by
  by_contra hne
  unfold subComm at hne
  split at hne
  · rename_i hand
    rw [groupOf_pos hand.1 hand.2] at h
    exact nomatch h
  · exact hne rfl

theorem subComm_some {kind : Kind} {members : List Proc} {w : Proc} {c : CommId}
    (h : groupOf kind members w = some c) :
    subComm members w = some ⟨c.members, c.members.idxOf w⟩ ∧ c = ⟨kind, members⟩ ∧ w ∈ members := by
  obtain ⟨hlen, hw, rfl⟩ := groupOf_some h
  exact ⟨if_pos ⟨hlen, hw⟩, rfl, hw⟩

section Steps
variable {α : Type} {op : α → α → α} {count : Nat} {place : Placement} {ranks : List Proc} {origin w : Proc}
variable {rank root : Nat} {b : Bufs α} {next : Bufs α → SmpProg α} {c : CommId}

theorem otherOsprocs_skip (h : otherOsprocsGroup place ranks origin w = none) :
    otherOsprocs op count (subsOf place ranks w) (entry place (place.pid w) ranks origin) b next = next b := by
  unfold otherOsprocs subsOf
  unfold otherOsprocsGroup at h
  dsimp only
  split at h
  · rw [subComm_none h]
  · rename_i hpid
    have hrank : (entry place (place.pid w) ranks origin).intraOsprocFgRank =
        some ((colocated place ranks (place.pid w)).idxOf origin) := if_pos (not_not.mp hpid).symm
    rw [hrank]
    split
    · rename_i hnone
      exact nomatch hnone
    · rfl

theorem otherOsprocs_busy (h : otherOsprocsGroup place ranks origin w = some c) :
    otherOsprocs op count (subsOf place ranks w) (entry place (place.pid w) ranks origin) b next =
      assert (0 = c.members.idxOf w → b.tmpBuf.isNull = false)
        (reduceImpl op count c (c.members.idxOf w) b.sendbuf b.tmpBuf 0 fun tmpBuf =>
          next { b with tmpBuf := tmpBuf, didReduce := true }) := by
  unfold otherOsprocs subsOf
  unfold otherOsprocsGroup at h
  dsimp only
  split at h
  · rename_i hpid
    obtain ⟨hsub, rfl, -⟩ := subComm_some h
    have hrank : (entry place (place.pid w) ranks origin).intraOsprocFgRank = none := if_neg (Ne.symm hpid)
    rw [hsub, hrank]
  · exact nomatch h

theorem otherNodes_skip (h : otherNodesGroup place ranks origin w = none) (horigin : origin ∈ ranks) :
    otherNodes op count (subsOf place ranks w) (entry place (place.pid w) ranks origin) b next = next b := by
  unfold otherNodes subsOf
  unfold otherNodesGroup at h
  dsimp only
  split at h
  · rw [subComm_none h]
  · rename_i hnode
    rw [SmpBcast.intranode_rank horigin (not_not.mp hnode).symm]
    split
    · rename_i hnone
      exact nomatch hnone
    · rfl

theorem otherNodes_busy (h : otherNodesGroup place ranks origin w = some c) :
    otherNodes op count (subsOf place ranks w) (entry place (place.pid w) ranks origin) b next =
      let reduce := fun buf : SendBuf α =>
        reduceImpl op count c (c.members.idxOf w) buf b.tmpBuf 0 fun tmpBuf =>
          next { b with tmpBuf := tmpBuf, didReduce := true }
      match subComm (colocated place ranks (place.pid w)) w with
      | some o =>
        assert (b.didReduce = true) <| assert (0 = o.rank) <|
          reduce (if 0 = c.members.idxOf w then .inPlace else .buf b.tmpBuf)
      | none => reduce b.sendbuf := by
  unfold otherNodes subsOf
  unfold otherNodesGroup at h
  dsimp only
  split at h
  · rename_i hnode
    obtain ⟨hsub, rfl, -⟩ := subComm_some h
    rewrite [hsub, SmpBcast.intranode_rank_other (Ne.symm hnode)]
    cases subComm (colocated place ranks (place.pid w)) w <;> rfl
  · exact nomatch h

theorem amongRoots_skip (h : rootsGroup place ranks w = none) :
    amongRoots op count rank root (subsOf place ranks w) (entry place (place.pid w) ranks origin) b next =
      next b := by
  unfold amongRoots subsOf
  dsimp only
  rw [subComm_none h]

theorem amongRoots_busy (h : rootsGroup place ranks w = some c) (horigin : origin ∈ ranks) :
    amongRoots op count rank root (subsOf place ranks w) (entry place (place.pid w) ranks origin) b next =
      let reduce := reduceImpl op count c (c.members.idxOf w)
      let target := c.members.idxOf (originRoot place ranks origin)
      if c.members.idxOf w ≠ target then
        if (subsOf place ranks w).nodeComm = none ∧ (subsOf place ranks w).osprocColocatedComm = none then
          reduce b.sendbuf .null target fun _ => next { b with didReduce := true }
        else
          assert (b.didReduce = true) <|
            reduce (.buf b.tmpBuf) .null target fun _ => next { b with didReduce := true }
      else if rank ≠ root then
        if (subsOf place ranks w).osprocColocatedComm ≠ none ∧ place.pid origin ≠ place.pid w then
          assert (b.didReduce = true) <|
            reduce .inPlace b.tmpBuf target fun tmpBuf =>
              next { b with tmpBuf := tmpBuf, didReduce := true, sendbuf := .buf tmpBuf }
        else
          reduce b.sendbuf b.tmpBuf target fun tmpBuf =>
            next { b with tmpBuf := tmpBuf, didReduce := true, sendbuf := .buf tmpBuf }
      else
        reduce b.sendbuf b.recvbuf target fun recvbuf =>
          next { b with recvbuf := recvbuf, didReduce := true, sendbuf := .inPlace } := by
  obtain ⟨hsub, rfl, -⟩ := subComm_some h
  have hsub' : (subsOf place ranks w).nodeRootsComm = some ⟨roots place ranks, (roots place ranks).idxOf w⟩ := hsub
  have hrank : (entry place (place.pid w) ranks origin).intraOsprocFgRank = none ↔
      place.pid origin ≠ place.pid w := by
    rw [entry]
    dsimp only
    split <;> simp [*]
  unfold amongRoots
  rw [hsub']
  dsimp only
  rw [SmpBcast.internode_rank horigin]
  simp only [hrank]

theorem rootNode_skip (h : rootNodeGroup place ranks origin w = none) :
    rootNode op count rank root (subsOf place ranks w) (entry place (place.pid w) ranks origin) b next = next b := by
  unfold rootNode subsOf
  unfold rootNodeGroup at h
  dsimp only
  split at h
  · rw [subComm_none h]
  · rename_i hnode
    rw [SmpBcast.intranode_rank_other (Ne.symm hnode)]
    split
    · rename_i hnone
      exact nomatch hnone
    · rfl

theorem rootNode_busy (h : rootNodeGroup place ranks origin w = some c) (horigin : origin ∈ ranks) :
    rootNode op count rank root (subsOf place ranks w) (entry place (place.pid w) ranks origin) b next =
      let reduce := reduceImpl op count c (c.members.idxOf w)
      let target := c.members.idxOf (originLeader place ranks origin)
      if c.members.idxOf w ≠ target then
        if (subsOf place ranks w).osprocColocatedComm ≠ none ∨ (subsOf place ranks w).nodeRootsComm ≠ none then
          assert (b.didReduce = true) <| reduce (.buf b.tmpBuf) .null target fun _ => next b
        else reduce b.sendbuf .null target fun _ => next b
      else if rank ≠ root then
        if (subsOf place ranks w).nodeRootsComm ≠ none then
          assert (b.didReduce = true) <|
            reduce .inPlace b.tmpBuf target fun tmpBuf =>
              next { b with tmpBuf := tmpBuf, sendbuf := .buf tmpBuf }
        else
          reduce b.sendbuf b.tmpBuf target fun tmpBuf =>
            next { b with tmpBuf := tmpBuf, sendbuf := .buf tmpBuf }
      else
        reduce b.sendbuf b.recvbuf target fun recvbuf =>
          next { b with recvbuf := recvbuf, sendbuf := .inPlace } := by
  unfold rootNodeGroup at h
  split at h
  · rename_i hnode
    obtain ⟨hsub, rfl, -⟩ := subComm_some h
    have hsub' : (subsOf place ranks w).nodeComm =
        some ⟨leaders place ranks (nodeOf place w), (leaders place ranks (nodeOf place w)).idxOf w⟩ := hsub
    unfold rootNode
    rw [hsub', SmpBcast.intranode_rank horigin hnode.symm]
  · exact nomatch h

theorem rootOsproc_skip (h : rootOsprocGroup place ranks origin w = none) :
    rootOsproc op count (subsOf place ranks w) (entry place (place.pid w) ranks origin) b next = next b := by
  unfold rootOsproc subsOf
  unfold rootOsprocGroup at h
  dsimp only
  split at h
  · rw [subComm_none h]
  · rename_i hpid
    have hrank : (entry place (place.pid w) ranks origin).intraOsprocFgRank = none := if_neg (Ne.symm hpid)
    rw [hrank]
    split
    · rename_i hnone
      exact nomatch hnone
    · rfl

theorem rootOsproc_busy (h : rootOsprocGroup place ranks origin w = some c) :
    rootOsproc op count (subsOf place ranks w) (entry place (place.pid w) ranks origin) b next =
      reduceImpl op count c (c.members.idxOf w) b.sendbuf b.recvbuf (c.members.idxOf origin) fun recvbuf =>
        next { b with recvbuf := recvbuf } := by
  unfold rootOsproc subsOf
  unfold rootOsprocGroup at h
  dsimp only
  split at h
  · rename_i hpid
    obtain ⟨hsub, rfl, -⟩ := subComm_some h
    have hrank : (entry place (place.pid w) ranks origin).intraOsprocFgRank =
        some ((colocated place ranks (place.pid w)).idxOf origin) := if_pos hpid.symm
    rw [hsub, hrank]
  · exact nomatch h

variable {args : Proc → Args α} {fits : List (Item α) → Inp CommId Proc → Prop} {r : Except Fault (Memory α)} {n : Nat}

theorem otherOsprocs_act : reduceAct op count place ranks origin args w 0 =
    reduceLevel count (otherOsprocsGroup place ranks origin) (fun _ => 0) (standing op origin args ofSelf) w := rfl

theorem otherNodes_act : reduceAct op count place ranks origin args w 1 =
    reduceLevel count (otherNodesGroup place ranks origin) (fun _ => 0)
      (standing op origin args (ofOsprocs place ranks origin)) w := rfl

theorem amongRoots_act : reduceAct op count place ranks origin args w 2 =
    reduceLevel count (rootsGroup place ranks) (fun c => c.members.idxOf (originRoot place ranks origin))
      (standing op origin args (ofNodes place ranks origin)) w := rfl

theorem rootNode_act : reduceAct op count place ranks origin args w 3 =
    reduceLevel count (rootNodeGroup place ranks origin) (fun c => c.members.idxOf (originLeader place ranks origin))
      (standing op origin args (ofRoots place ranks origin)) w := rfl

theorem rootOsproc_act : reduceAct op count place ranks origin args w 4 =
    reduceLevel count (rootOsprocGroup place ranks origin) (fun c => c.members.idxOf origin)
      (standing op origin args (ofLeaders place ranks origin)) w := rfl

theorem otherOsprocs_pass (h : otherOsprocsGroup place ranks origin w = none)
    (hnext : Follows fits r (staged (reduceAct op count place ranks origin args w) 1 n) (next b)) :
    Follows fits r (staged (reduceAct op count place ranks origin args w) 0 (n + 1))
      (otherOsprocs op count (subsOf place ranks w) (entry place (place.pid w) ranks origin) b next) := by
  rw [staged_idle (otherOsprocs_act.trans (reduceLevel_none h _)), otherOsprocs_skip h]
  exact hnext

theorem otherNodes_pass (h : otherNodesGroup place ranks origin w = none) (horigin : origin ∈ ranks)
    (hnext : Follows fits r (staged (reduceAct op count place ranks origin args w) 2 n) (next b)) :
    Follows fits r (staged (reduceAct op count place ranks origin args w) 1 (n + 1))
      (otherNodes op count (subsOf place ranks w) (entry place (place.pid w) ranks origin) b next) := by
  rw [staged_idle (otherNodes_act.trans (reduceLevel_none h _)), otherNodes_skip h horigin]
  exact hnext

theorem amongRoots_pass (h : rootsGroup place ranks w = none)
    (hnext : Follows fits r (staged (reduceAct op count place ranks origin args w) 3 n) (next b)) :
    Follows fits r (staged (reduceAct op count place ranks origin args w) 2 (n + 1))
      (amongRoots op count rank root (subsOf place ranks w) (entry place (place.pid w) ranks origin) b next) := by
  rw [staged_idle (amongRoots_act.trans (reduceLevel_none h _)), amongRoots_skip h]
  exact hnext

theorem rootNode_pass (h : rootNodeGroup place ranks origin w = none)
    (hnext : Follows fits r (staged (reduceAct op count place ranks origin args w) 4 n) (next b)) :
    Follows fits r (staged (reduceAct op count place ranks origin args w) 3 (n + 1))
      (rootNode op count rank root (subsOf place ranks w) (entry place (place.pid w) ranks origin) b next) := by
  rw [staged_idle (rootNode_act.trans (reduceLevel_none h _)), rootNode_skip h]
  exact hnext

theorem rootOsproc_pass (h : rootOsprocGroup place ranks origin w = none)
    (hnext : Follows fits r (staged (reduceAct op count place ranks origin args w) 5 n) (next b)) :
    Follows fits r (staged (reduceAct op count place ranks origin args w) 4 (n + 1))
      (rootOsproc op count (subsOf place ranks w) (entry place (place.pid w) ranks origin) b next) := by
  rw [staged_idle (rootOsproc_act.trans (reduceLevel_none h _)), rootOsproc_skip h]
  exact hnext

end Steps

end FgMpi.Coll.SmpReduce
