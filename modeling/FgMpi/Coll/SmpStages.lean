import FgMpi.Coll.SmpBcast

/-! The stages of a broadcast. -/

namespace FgMpi.Coll.SmpBcast
open Comm.NestedMaps Hierarchy Machine Machine.Ints

section Leaders
variable (place : Placement) (ranks : List Proc)

def leaderOf (pid : Nat) : Proc := (colocated place ranks pid).headD 0
def nodeRoot (node : Nat) : Proc := (leaders place ranks node).headD 0

variable {ranks} {w v : Proc}

variable {l : List Proc}

theorem head?_eq_headD (h : w ∈ l) : l.head? = some (l.headD 0) := by
  cases l with
  | nil => exact nomatch h
  | cons x l => rfl

theorem headD_mem (h : w ∈ l) : l.headD 0 ∈ l := List.mem_of_mem_head? (head?_eq_headD h)

section
variable (hw : w ∈ ranks)
include hw

theorem leaderOf_colocated : leaderOf place ranks (place.pid w) ∈ colocated place ranks (place.pid w) :=
  headD_mem (mem_colocated place hw)

theorem pid_leaderOf : place.pid (leaderOf place ranks (place.pid w)) = place.pid w := by
  simpa using (List.mem_filter.mp (leaderOf_colocated place hw)).2

theorem leaderOf_mem : leaderOf place ranks (place.pid w) ∈ ranks :=
  List.mem_of_mem_filter (leaderOf_colocated place hw)

theorem nodeOf_leaderOf : nodeOf place (leaderOf place ranks (place.pid w)) = nodeOf place w := by
  rw [nodeOf, pid_leaderOf place hw, nodeOf]

theorem mem_leaders_iff_eq :
    w ∈ leaders place ranks (nodeOf place w) ↔ leaderOf place ranks (place.pid w) = w := by
  rw [mem_leaders_iff place hw, idxOf_eq_zero (mem_colocated place hw),
    head?_eq_headD (mem_colocated place hw), Option.some.injEq]
  rfl

theorem leaderOf_leaders : leaderOf place ranks (place.pid w) ∈ leaders place ranks (nodeOf place w) := by
  have h := (mem_leaders_iff_eq place (leaderOf_mem place hw)).mpr
  rw [pid_leaderOf place hw, nodeOf_leaderOf place hw] at h
  exact h rfl

theorem nodeRoot_leaders : nodeRoot place ranks (nodeOf place w) ∈ leaders place ranks (nodeOf place w) :=
  headD_mem (leaderOf_leaders place hw)

theorem nodeOf_nodeRoot : nodeOf place (nodeRoot place ranks (nodeOf place w)) = nodeOf place w :=
  (mem_of_mem_leaders place (nodeRoot_leaders place hw)).2

theorem nodeRoot_mem : nodeRoot place ranks (nodeOf place w) ∈ ranks :=
  (mem_of_mem_leaders place (nodeRoot_leaders place hw)).1

theorem mem_roots_iff_eq : w ∈ roots place ranks ↔ nodeRoot place ranks (nodeOf place w) = w := by
  rw [mem_roots_iff, head?_eq_headD (leaderOf_leaders place hw), Option.some.injEq]
  rfl

theorem nodeRoot_roots : nodeRoot place ranks (nodeOf place w) ∈ roots place ranks := by
  rw [mem_roots_iff_eq place (nodeRoot_mem place hw), nodeOf_nodeRoot place hw]

end

theorem roots_leaders (hw : w ∈ roots place ranks) : w ∈ leaders place ranks (nodeOf place w) :=
  List.mem_of_mem_head? ((mem_roots_iff place).mp hw)

theorem one_lt_length (hw : w ∈ l) (hv : v ∈ l) (hne : w ≠ v) : 1 < l.length := by
  cases l with
  | nil => exact nomatch hw
  | cons x l =>
    cases l with
    | nil => exact absurd ((List.mem_singleton.mp hw).trans (List.mem_singleton.mp hv).symm) hne
    | cons y l => simp

theorem idxOf_map {key : Proc → Nat} (hnodup : (l.map key).Nodup) (hv : v ∈ l)
    (hkey : key w = key v) : (l.map key).idxOf (key w) = l.idxOf v := by
  induction l with
  | nil => exact nomatch hv
  | cons x l ih =>
    rw [List.map_cons, List.nodup_cons] at hnodup
    rw [List.map_cons]
    by_cases hx : x = v
    · rw [hx, ← hkey, List.idxOf_cons_self, List.idxOf_cons_self]
    · have hvl : v ∈ l := (List.mem_cons.mp hv).resolve_left (Ne.symm hx)
      have hkx : key x ≠ key w := by
        intro heq
        exact hnodup.1 (heq ▸ hkey ▸ List.mem_map_of_mem hvl)
      rw [List.idxOf_cons_ne _ hkx, List.idxOf_cons_ne _ hx, ih hnodup.2 hvl]

theorem process_idxOf (kind : Kind) (hw : w ∈ l) : CommId.process ⟨kind, l⟩ (l.idxOf w) = w := by
  have hlt := List.idxOf_lt_length_of_mem hw
  rw [CommId.process, List.getD_eq_getElem?_getD, List.getElem?_eq_getElem hlt, List.getElem_idxOf hlt]
  rfl

theorem process_zero (kind : Kind) (l : List Proc) : CommId.process ⟨kind, l⟩ 0 = l.headD 0 := by
  cases l <;> rfl

end Leaders

inductive Route
  | empty
  | flat (algorithm : Algorithm)
  | short
  | medium
  | long
deriving DecidableEq

def only (P : Prop) [Decidable P] (c : Call) : List Call := if P then [c] else []

section Stages
variable (place : Placement) (ranks : List Proc) (root : Nat) (origin : Proc) (w : Proc)

def originLeader : Proc := leaderOf place ranks (place.pid origin)
def originRoot : Proc := nodeRoot place ranks (nodeOf place origin)

def osprocId (pid : Nat) : CommId := ⟨.osprocColocatedComm, colocated place ranks pid⟩
def nodeId (node : Nat) : CommId := ⟨.nodeComm, leaders place ranks node⟩
def rootsId : CommId := ⟨.nodeRootsComm, roots place ranks⟩

def toLeader : List Call :=
  only (originLeader place ranks origin ≠ origin ∧ w = origin)
      (.send (osprocId place ranks (place.pid origin)) 0) ++
    only (originLeader place ranks origin ≠ origin ∧ w = originLeader place ranks origin)
      (.recv (osprocId place ranks (place.pid origin))
        ((colocated place ranks (place.pid origin)).idxOf origin))

def toNodeRoot : List Call :=
  only (originRoot place ranks origin ≠ originLeader place ranks origin ∧
      w = originLeader place ranks origin)
      (.send (nodeId place ranks (nodeOf place origin)) 0) ++
    only (originRoot place ranks origin ≠ originLeader place ranks origin ∧
      w = originRoot place ranks origin)
      (.recv (nodeId place ranks (nodeOf place origin))
        ((leaders place ranks (nodeOf place origin)).idxOf (originLeader place ranks origin)))

def onNode : List Call :=
  only (originRoot place ranks origin ≠ originLeader place ranks origin ∧
      w ∈ leaders place ranks (nodeOf place origin))
    (.bcast .binomial (nodeId place ranks (nodeOf place origin))
      ((leaders place ranks (nodeOf place origin)).idxOf (originLeader place ranks origin)))

def amongRoots (algorithm : Algorithm) : List Call :=
  only (1 < (roots place ranks).length ∧ w ∈ roots place ranks)
    (.bcast algorithm (rootsId place ranks)
      ((roots place ranks).idxOf (originRoot place ranks origin)))

def onNodes (served : Prop) [Decidable served] : List Call :=
  only (1 < (leaders place ranks (nodeOf place w)).length ∧
      w ∈ leaders place ranks (nodeOf place w) ∧ ¬ (served ∧ nodeOf place w = nodeOf place origin))
    (.bcast .binomial (nodeId place ranks (nodeOf place w)) 0)

def inOsproc : List Call :=
  only (1 < (colocated place ranks (place.pid w)).length)
    (.bcast .binomial (osprocId place ranks (place.pid w)) 0)

def rootsAlgorithm : Algorithm :=
  if isPof2 (roots place ranks).length then .scatterDoublingAllgather else .scatterRingAllgather

def stages : Route → List Call
  | .empty => []
  | .flat algorithm => [.bcast algorithm ⟨.comm, ranks⟩ root]
  | .short =>
    toLeader place ranks origin w ++
      (toNodeRoot place ranks origin w ++ amongRoots place ranks origin w .binomial ++
        onNodes place ranks origin w False ++ inOsproc place ranks w)
  | .medium =>
    toLeader place ranks origin w ++
      (onNode place ranks origin w ++ amongRoots place ranks origin w (rootsAlgorithm place ranks) ++
        onNodes place ranks origin w (originRoot place ranks origin ≠ originLeader place ranks origin) ++
        inOsproc place ranks w)
  | .long => toLeader place ranks origin w ++ [.bcast .scatterRingAllgather ⟨.comm, ranks⟩ root]

end Stages

section Equations
variable {place : Placement} {ranks : List Proc} {origin w : Proc} {root : Nat}

variable {l : List Proc}

theorem idxOf_pos (h : w ∈ l) : 0 < l.idxOf w ↔ l.headD 0 ≠ w := by
  rw [Nat.pos_iff_ne_zero, ne_eq, idxOf_eq_zero h, head?_eq_headD h, Option.some.injEq]

theorem idxOf_zero (h : w ∈ l) : 0 = l.idxOf w ↔ w = l.headD 0 := by
  rw [eq_comm, idxOf_eq_zero h, head?_eq_headD h, Option.some.injEq, eq_comm]

theorem subComm_of_mem (h : w ∈ l) :
    subComm l w = if 1 < l.length then some ⟨l, l.idxOf w⟩ else none := by
  simp [subComm, h]

theorem only_neg {P : Prop} [Decidable P] {c : Call} (h : ¬ P) : only P c = [] := if_neg h

theorem only_pos {P : Prop} [Decidable P] {c : Call} (h : P) : only P c = [c] := if_pos h

theorem root_lookup (hnodup : ranks.Nodup) (hroot : ranks[root]? = some origin) :
    lookup place ranks w root = some (entry place (place.pid w) ranks origin) := by
  rw [lookup, ptn_entry hnodup hroot]

theorem rank_eq_root (hnodup : ranks.Nodup) (hroot : ranks[root]? = some origin) :
    root = ranks.idxOf w ↔ w = origin := by
  obtain ⟨hlt, hget⟩ := List.getElem?_eq_some_iff.mp hroot
  constructor
  · rintro rfl
    rw [List.getElem_idxOf] at hget
    exact hget
  · rintro rfl
    rw [← hget, hnodup.idxOf_getElem]

variable {sub : SubComms}

theorem osprocSend_eq (hnodup : ranks.Nodup) (hroot : ranks[root]? = some origin) (hw : w ∈ ranks) (hsub : sub.osprocColocatedComm = subComm (colocated place ranks (place.pid w)) w) :
    osprocSend (ranks.idxOf w) root sub (entry place (place.pid w) ranks origin) =
      toLeader place ranks origin w := by
  have horigin : origin ∈ ranks := List.mem_of_getElem? hroot
  have hmem := mem_colocated place hw
  unfold osprocSend toLeader
  by_cases hpid : place.pid origin = place.pid w
  · have hcol : origin ∈ colocated place ranks (place.pid w) := hpid ▸ mem_colocated place horigin
    have hrank : (entry place (place.pid w) ranks origin).intraOsprocFgRank =
        some ((colocated place ranks (place.pid w)).idxOf origin) := if_pos hpid
    rw [hsub, hrank, subComm_of_mem hmem, originLeader, hpid]
    by_cases hfirst : leaderOf place ranks (place.pid w) = origin
    · have hzero : ¬ (colocated place ranks (place.pid w)).idxOf origin > 0 :=
        fun hpos => (idxOf_pos hcol).mp hpos hfirst
      rw [only_neg (fun hand => hand.1 hfirst), only_neg (fun hand => hand.1 hfirst)]
      split
      · rename_i heq hval
        obtain rfl := Option.some.inj hval
        rw [if_neg hzero]
        rfl
      · rfl
    · have hpos := (idxOf_pos hcol).mpr hfirst
      have hlen := one_lt_length (leaderOf_colocated place hw) hcol hfirst
      rw [if_pos hlen]
      dsimp only
      rw [if_pos hpos]
      by_cases hself : w = origin
      · subst hself
        rw [if_pos ((rank_eq_root hnodup hroot).mpr rfl), only_pos ⟨hfirst, rfl⟩,
          only_neg (fun hand => hfirst hand.2.symm)]
        rfl
      · rw [if_neg (fun heq => hself ((rank_eq_root hnodup hroot).mp heq)),
          only_neg (fun hand => hself hand.2)]
        by_cases hlead : w = leaderOf place ranks (place.pid w)
        · rw [if_pos ((idxOf_zero hmem).mpr hlead), only_pos ⟨hfirst, hlead⟩]
          rfl
        · rw [if_neg (fun heq => hlead ((idxOf_zero hmem).mp heq)), only_neg (fun hand => hlead hand.2)]
          rfl
  · have hrank : (entry place (place.pid w) ranks origin).intraOsprocFgRank = none := if_neg hpid
    have hself : w ≠ origin := by
      rintro rfl
      exact hpid rfl
    have hlead : w ≠ originLeader place ranks origin := by
      intro heq
      refine hpid ?_
      rw [heq, originLeader, pid_leaderOf place horigin]
    rw [hrank, only_neg (fun hand => hself hand.2), only_neg (fun hand => hlead hand.2)]
    split
    · rename_i hval
      exact nomatch hval
    · rfl

theorem intranode_rank (horigin : origin ∈ ranks) (hnode : nodeOf place origin = nodeOf place w) :
    (entry place (place.pid w) ranks origin).intranodeCommRoot =
      some ((leaders place ranks (nodeOf place w)).idxOf (originLeader place ranks origin)) := by
  have hmem := leaderOf_leaders place horigin
  have hkey := (pid_leaderOf place horigin).symm
  rw [hnode] at hmem
  have hidx := idxOf_map (firsts_keys_nodup place.pid _) hmem hkey
  exact (if_pos hnode).trans (congrArg some hidx)

theorem intranode_rank_other (hnode : nodeOf place origin ≠ nodeOf place w) :
    (entry place (place.pid w) ranks origin).intranodeCommRoot = none := if_neg hnode

theorem internode_rank (horigin : origin ∈ ranks) :
    (entry place (place.pid w) ranks origin).internodeCommRoot =
      (roots place ranks).idxOf (originRoot place ranks origin) :=
  idxOf_map (firsts_keys_nodup (nodeOf place) _) (nodeRoot_roots place horigin) (nodeOf_nodeRoot place horigin).symm

theorem leader_pos (place : Placement) (horigin : origin ∈ ranks) :
    0 < (leaders place ranks (nodeOf place origin)).idxOf (originLeader place ranks origin) ↔
      originRoot place ranks origin ≠ originLeader place ranks origin :=
  idxOf_pos (leaderOf_leaders place horigin)

theorem leaders_of_mem (hw : w ∈ leaders place ranks (nodeOf place origin)) :
    nodeOf place origin = nodeOf place w := (mem_of_mem_leaders place hw).2.symm

section
variable (horigin : origin ∈ ranks)
include horigin

theorem nodeSend_eq
    (hsub : sub.nodeComm = subComm (leaders place ranks (nodeOf place w)) w) :
    nodeSend sub (entry place (place.pid w) ranks origin) = toNodeRoot place ranks origin w := by
  unfold nodeSend toNodeRoot
  have hmem := leaderOf_leaders place horigin
  have hroot := nodeRoot_leaders place horigin
  by_cases hnode : nodeOf place origin = nodeOf place w
  · rw [intranode_rank horigin hnode, hsub]
    by_cases hfirst : originRoot place ranks origin = originLeader place ranks origin
    · have hzero := mt (leader_pos place horigin).mp (not_not.mpr hfirst)
      rw [hnode] at hzero
      rw [only_neg (fun hand => hand.1 hfirst), only_neg (fun hand => hand.1 hfirst)]
      split
      · rename_i heq hval
        obtain rfl := Option.some.inj hval
        rw [if_neg hzero]
        rfl
      · rfl
    · have hpos := (leader_pos place horigin).mpr hfirst
      have hlen := one_lt_length hroot hmem hfirst
      by_cases hlead : w ∈ leaders place ranks (nodeOf place w)
      · have hrank : (leaders place ranks (nodeOf place w)).idxOf (originLeader place ranks origin) =
            (leaders place ranks (nodeOf place w)).idxOf w ↔ w = originLeader place ranks origin := by
          rw [← hnode]
          exact (List.idxOf_inj hmem).trans eq_comm
        rw [hnode] at hpos hlen
        rw [subComm_of_mem hlead, if_pos hlen]
        dsimp only
        rw [if_pos hpos]
        by_cases hself : w = originLeader place ranks origin
        · rw [if_pos (hrank.mpr hself), only_pos ⟨hfirst, hself⟩,
            only_neg (fun hand => hfirst (hand.2.symm.trans hself)), hnode]
          rfl
        · rw [if_neg (fun heq => hself (hrank.mp heq)), only_neg (fun hand => hself hand.2)]
          have hzero : 0 = (leaders place ranks (nodeOf place w)).idxOf w ↔
              w = originRoot place ranks origin := by
            rw [idxOf_zero hlead, originRoot, hnode]
            rfl
          by_cases hr : w = originRoot place ranks origin
          · rw [if_pos (hzero.mpr hr), only_pos ⟨hfirst, hr⟩, hnode]
            rfl
          · rw [if_neg (fun heq => hr (hzero.mp heq)), only_neg (fun hand => hr hand.2)]
            rfl
      · have hne : ∀ {x}, x ∈ leaders place ranks (nodeOf place origin) → w ≠ x := by
          rintro x hx rfl
          exact hlead (hnode ▸ hx)
        rw [subComm, if_neg (fun hand => hlead hand.2),
          only_neg (fun hand => hne hmem hand.2), only_neg (fun hand => hne hroot hand.2)]
        rfl
  · have hne : ∀ {x}, x ∈ leaders place ranks (nodeOf place origin) → w ≠ x := by
      rintro x hx rfl
      exact hnode (leaders_of_mem hx)
    rw [intranode_rank_other hnode, only_neg (fun hand => hne hmem hand.2),
      only_neg (fun hand => hne hroot hand.2)]
    split
    · rename_i hval
      cases hval
    · rfl

theorem rootNodeBcast_eq
    (hsub : sub.nodeComm = subComm (leaders place ranks (nodeOf place w)) w) :
    rootNodeBcast sub (entry place (place.pid w) ranks origin) = onNode place ranks origin w := by
  unfold rootNodeBcast onNode
  have hmem := leaderOf_leaders place horigin
  have hroot := nodeRoot_leaders place horigin
  by_cases hlead : nodeOf place origin = nodeOf place w ∧ w ∈ leaders place ranks (nodeOf place w)
  · obtain ⟨hnode, hlead⟩ := hlead
    rw [intranode_rank horigin hnode, hsub, subComm_of_mem hlead]
    by_cases hfirst : originRoot place ranks origin = originLeader place ranks origin
    · have hzero := mt (leader_pos place horigin).mp (not_not.mpr hfirst)
      rw [hnode] at hzero
      rw [only_neg (fun hand => hand.1 hfirst)]
      split
      · rename_i heq hval
        obtain rfl := Option.some.inj hval
        rw [if_neg hzero]
      · rfl
    · have hpos := (leader_pos place horigin).mpr hfirst
      have hlen := one_lt_length hroot hmem hfirst
      rw [hnode] at hpos hlen
      rw [if_pos hlen]
      dsimp only
      rw [if_pos hpos, only_pos ⟨hfirst, hnode ▸ hlead⟩, hnode]
      rfl
  · have hnot : w ∉ leaders place ranks (nodeOf place origin) :=
      fun h => hlead ⟨leaders_of_mem h, leaders_of_mem h ▸ h⟩
    rw [only_neg (fun hand => hnot hand.2), hsub]
    by_cases hnode : nodeOf place origin = nodeOf place w
    · rw [subComm, if_neg (fun hand => hlead ⟨hnode, hand.2⟩)]
    · rw [intranode_rank_other hnode]
      split
      · rename_i hval
        cases hval
      · rfl

theorem internodeBcast_eq (algorithm : Nat → Algorithm)
    (hsub : sub.nodeRootsComm = subComm (roots place ranks) w) :
    internodeBcast sub (entry place (place.pid w) ranks origin) algorithm =
      amongRoots place ranks origin w (algorithm (roots place ranks).length) := by
  unfold internodeBcast amongRoots
  rw [hsub, subComm, internode_rank horigin]
  by_cases h : 1 < (roots place ranks).length ∧ w ∈ roots place ranks
  · rw [if_pos h, only_pos h]
    rfl
  · rw [if_neg h, only_neg h]

end

theorem intranodeBcast_eq
    (hsub : sub.nodeComm = subComm (leaders place ranks (nodeOf place w)) w) :
    intranodeBcast sub = onNodes place ranks origin w False := by
  unfold intranodeBcast onNodes
  rw [hsub, subComm]
  by_cases h : 1 < (leaders place ranks (nodeOf place w)).length ∧
      w ∈ leaders place ranks (nodeOf place w)
  · rw [if_pos h, only_pos ⟨h.1, h.2, fun hand => hand.1⟩]
    rfl
  · rw [if_neg h, only_neg (fun hand => h ⟨hand.1, hand.2.1⟩)]

theorem otherNodesBcast_eq (horigin : origin ∈ ranks)
    (hsub : sub.nodeComm = subComm (leaders place ranks (nodeOf place w)) w) :
    otherNodesBcast sub (entry place (place.pid w) ranks origin) = onNodes place ranks origin w
      (originRoot place ranks origin ≠ originLeader place ranks origin) := by
  unfold otherNodesBcast onNodes
  rw [hsub, subComm]
  by_cases h : 1 < (leaders place ranks (nodeOf place w)).length ∧
      w ∈ leaders place ranks (nodeOf place w)
  · rw [if_pos h]
    by_cases hnode : nodeOf place origin = nodeOf place w
    · have hpos := leader_pos place horigin
      rw [intranode_rank horigin hnode]
      rw [hnode] at hpos
      dsimp only
      by_cases hfirst : originRoot place ranks origin = originLeader place ranks origin
      · rw [if_pos (Nat.le_of_not_lt (mt hpos.mp (not_not.mpr hfirst))),
          only_pos ⟨h.1, h.2, fun hand => hand.1 hfirst⟩]
        rfl
      · rw [if_neg (Nat.not_le.mpr (hpos.mpr hfirst)),
          only_neg (fun hand => hand.2.2 ⟨hfirst, hnode.symm⟩)]
    · rw [intranode_rank_other hnode, only_pos ⟨h.1, h.2, fun hand => hnode hand.2.symm⟩]
      rfl
  · rw [if_neg h, only_neg (fun hand => h ⟨hand.1, hand.2.1⟩)]

theorem osprocBcast_eq (hw : w ∈ ranks)
    (hsub : sub.osprocColocatedComm = subComm (colocated place ranks (place.pid w)) w) :
    osprocBcast sub = inOsproc place ranks w := by
  unfold osprocBcast inOsproc
  rw [hsub, subComm_of_mem (mem_colocated place hw)]
  by_cases h : 1 < (colocated place ranks (place.pid w)).length
  · rw [if_pos h, only_pos h]
    rfl
  · rw [if_neg h, only_neg h]

end Equations

def UsesSmp (cv : Cvars) (place : Placement) (ranks : List Proc) (count typeSize : Nat) : Prop :=
  (roots place ranks).length ≠ ranks.length ∧ cv.enableSmpCollectives ∧ cv.enableSmpBcast ∧
    (if cv.maxSmpBcastMsgSize ≠ 0 then toInt (typeSize * count : Nat) else 0) ≤ cv.maxSmpBcastMsgSize

instance (cv : Cvars) (place : Placement) (ranks : List Proc) (count typeSize : Nat) :
    Decidable (UsesSmp cv place ranks count typeSize) := inferInstanceAs (Decidable (_ ∧ _))

def smpRoute (cv : Cvars) (size : Nat) (nbytes : Int) : Route :=
  if nbytes = 0 then .empty
  else if nbytes < cv.bcastShortMsgSize ∨ size < cv.bcastMinProcs then .short
  else if nbytes < cv.bcastLongMsgSize ∧ isPof2 size then .medium
  else .long

def flatRoute (cv : Cvars) (size : Nat) (nbytes : Int) : Route :=
  if nbytes = 0 then .empty
  else if nbytes < cv.bcastShortMsgSize ∨ size < cv.bcastMinProcs then .flat .binomial
  else if nbytes < cv.bcastLongMsgSize ∧ isPof2 size then .flat .scatterDoublingAllgather
  else .flat .scatterRingAllgather

def routeOf (cv : Cvars) (place : Placement) (ranks : List Proc) (count typeSize : Nat) : Route :=
  if UsesSmp cv place ranks count typeSize then smpRoute cv ranks.length (typeSize * count : Nat)
  else flatRoute cv ranks.length (toInt (typeSize * count : Nat))

section Route
variable {place : Placement} {ranks : List Proc} {origin w : Proc} {root count typeSize : Nat}
variable (cv : Cvars)

theorem smpBcast_eq (hnodup : ranks.Nodup) (hroot : ranks[root]? = some origin) (hw : w ∈ ranks)
    {sub : SubComms}
    (hnode : sub.nodeComm = subComm (leaders place ranks (nodeOf place w)) w)
    (hroots : sub.nodeRootsComm = subComm (roots place ranks) w)
    (hosproc : sub.osprocColocatedComm = subComm (colocated place ranks (place.pid w)) w) :
    smpBcast cv place ranks w root count typeSize sub = stages place ranks root origin w
      (smpRoute cv ranks.length (typeSize * count : Nat)) := by
  have horigin : origin ∈ ranks := List.mem_of_getElem? hroot
  unfold smpBcast smpRoute
  dsimp only
  by_cases hbytes : typeSize * count = 0
  · rw [if_pos hbytes, if_pos (by exact_mod_cast hbytes)]
    rfl
  rw [if_neg hbytes, if_neg (by exact_mod_cast hbytes), root_lookup hnodup hroot]
  dsimp only
  rw [osprocSend_eq hnodup hroot hw hosproc]
  split
  · rw [nodeSend_eq horigin hnode, internodeBcast_eq horigin _ hroots, intranodeBcast_eq hnode,
      osprocBcast_eq hw hosproc]
    rfl
  · split
    · rw [rootNodeBcast_eq horigin hnode, internodeBcast_eq horigin _ hroots,
        otherNodesBcast_eq horigin hnode, osprocBcast_eq hw hosproc]
      rfl
    · rfl

theorem flatBcast_eq :
    flatBcast cv ranks root count typeSize = stages place ranks root origin w
      (flatRoute cv ranks.length (toInt (typeSize * count : Nat))) := by
  unfold flatBcast flatRoute
  dsimp only
  split
  · rfl
  · split
    · rfl
    · split <;> rfl

theorem bcastIntra_eq (hnodup : ranks.Nodup) (hroot : ranks[root]? = some origin) (hw : w ∈ ranks) :
    bcastIntra cv place ranks w root count typeSize =
      stages place ranks root origin w (routeOf cv place ranks count typeSize) := by
  unfold bcastIntra routeOf
  dsimp only
  by_cases hcount : count = 0
  · have hzero : toInt ((0 : Nat) : Int) = 0 := by decide
    have hempty : (if UsesSmp cv place ranks count typeSize then
        smpRoute cv ranks.length (typeSize * count : Nat)
        else flatRoute cv ranks.length (toInt (typeSize * count : Nat))) = .empty := by
      rw [hcount, Nat.mul_zero, hzero]
      exact ite_self _
    rw [if_pos hcount, hempty]
    rfl
  · rw [if_neg hcount, commit_eq place hnodup hw]
    by_cases haware : (roots place ranks).length = ranks.length
    · have hnot : ¬UsesSmp cv place ranks count typeSize := fun hsmp => hsmp.1 haware
      rw [if_pos haware, if_neg hnot]
      exact flatBcast_eq cv
    · rw [if_neg haware]
      by_cases hsmp : UsesSmp cv place ranks count typeSize
      · obtain ⟨_, hand⟩ := id hsmp
        rw [if_pos hsmp]
        simp only [if_pos hand]
        exact smpBcast_eq cv hnodup hroot hw rfl rfl rfl
      · have hand := fun h => hsmp ⟨haware, h⟩
        rw [if_neg hsmp]
        simp only [if_neg hand]
        exact flatBcast_eq cv

theorem routeOf_ne_empty (hbytes : typeSize * count ≠ 0)
    (hint : UsesSmp cv place ranks count typeSize ∨ toInt (typeSize * count : Nat) ≠ 0) :
    routeOf cv place ranks count typeSize ≠ .empty := by
  unfold routeOf
  by_cases hsmp : UsesSmp cv place ranks count typeSize
  · rw [if_pos hsmp, smpRoute, if_neg (by exact_mod_cast hbytes)]
    split
    · decide
    · split <;> decide
  · rw [if_neg hsmp, flatRoute, if_neg (hint.resolve_left hsmp)]
    split
    · decide
    · split <;> decide

end Route

end FgMpi.Coll.SmpBcast
