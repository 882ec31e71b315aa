import FgMpi.Coll.SmpStages

/-! Delivery over the hierarchy. -/

namespace FgMpi.Coll.SmpBcast
open Comm.NestedMaps Hierarchy Machine Machine.Collectives Machine.Ints

def Route.hierarchical : Route → Prop
  | .short | .medium | .long => True
  | _ => False

def Route.nested : Route → Prop
  | .short | .medium => True
  | _ => False

def Route.whole : Route → Prop
  | .flat _ | .long => True
  | _ => False

inductive Acts (place : Placement) (ranks : List Proc) (origin : Proc) (route : Route) :
    Proc → Act CommId Proc → Prop
  | sendLeader : route.hierarchical → originLeader place ranks origin ≠ origin →
      Acts place ranks origin route origin
        (.send (osprocId place ranks (place.pid origin)) (originLeader place ranks origin))
  | recvLeader : route.hierarchical → originLeader place ranks origin ≠ origin →
      Acts place ranks origin route (originLeader place ranks origin)
        (.recv (osprocId place ranks (place.pid origin)) origin)
  | sendRoot : route = .short → originRoot place ranks origin ≠ originLeader place ranks origin →
      Acts place ranks origin route (originLeader place ranks origin)
        (.send (nodeId place ranks (nodeOf place origin)) (originRoot place ranks origin))
  | recvRoot : route = .short → originRoot place ranks origin ≠ originLeader place ranks origin →
      Acts place ranks origin route (originRoot place ranks origin)
        (.recv (nodeId place ranks (nodeOf place origin)) (originLeader place ranks origin))
  | onNode {w : Proc} : route = .medium →
      originRoot place ranks origin ≠ originLeader place ranks origin →
      w ∈ leaders place ranks (nodeOf place origin) →
      Acts place ranks origin route w
        (.bcast (nodeId place ranks (nodeOf place origin)) (originLeader place ranks origin))
  | amongRoots {w : Proc} : route.nested → 1 < (roots place ranks).length → w ∈ roots place ranks →
      Acts place ranks origin route w (.bcast (rootsId place ranks) (originRoot place ranks origin))
  | onNodes {w : Proc} : route.nested → 1 < (leaders place ranks (nodeOf place w)).length →
      w ∈ leaders place ranks (nodeOf place w) →
      ¬ (route = .medium ∧ originRoot place ranks origin ≠ originLeader place ranks origin ∧
        nodeOf place w = nodeOf place origin) →
      Acts place ranks origin route w
        (.bcast (nodeId place ranks (nodeOf place w)) (nodeRoot place ranks (nodeOf place w)))
  | inOsproc {w : Proc} : route.nested → w ∈ ranks →
      1 < (colocated place ranks (place.pid w)).length →
      Acts place ranks origin route w
        (.bcast (osprocId place ranks (place.pid w)) (leaderOf place ranks (place.pid w)))
  | whole {w : Proc} : route.whole → w ∈ ranks →
      Acts place ranks origin route w (.bcast ⟨.comm, ranks⟩ origin)

section Members
variable {place : Placement} {ranks : List Proc} {origin w : Proc} {root : Nat} {a : Act CommId Proc}

theorem mem_map_only {P : Prop} [Decidable P] {c : Call} : a ∈ (only P c).map Call.act ↔ P ∧ a = c.act := by
  unfold only
  split <;> simp [*]

theorem process_root (hroot : ranks[root]? = some origin) {kind : Kind} :
    CommId.process ⟨kind, ranks⟩ root = origin := by
  rw [CommId.process, List.getD_eq_getElem?_getD, hroot]
  rfl

section
variable (horigin : origin ∈ ranks)
include horigin

theorem mem_toLeader :
    a ∈ (toLeader place ranks origin w).map Call.act ↔
      originLeader place ranks origin ≠ origin ∧
        (w = origin ∧ a = .send (osprocId place ranks (place.pid origin))
            (originLeader place ranks origin) ∨
          w = originLeader place ranks origin ∧
            a = .recv (osprocId place ranks (place.pid origin)) origin) := by
  rw [toLeader, List.map_append, List.mem_append, mem_map_only, mem_map_only]
  have hsrc := process_idxOf .osprocColocatedComm (mem_colocated place horigin)
  have hdst := process_zero .osprocColocatedComm (colocated place ranks (place.pid origin))
  simp only [Call.act, osprocId, hsrc, hdst, originLeader, leaderOf]
  tauto

theorem mem_toNodeRoot :
    a ∈ (toNodeRoot place ranks origin w).map Call.act ↔
      originRoot place ranks origin ≠ originLeader place ranks origin ∧
        (w = originLeader place ranks origin ∧
            a = .send (nodeId place ranks (nodeOf place origin)) (originRoot place ranks origin) ∨
          w = originRoot place ranks origin ∧
            a = .recv (nodeId place ranks (nodeOf place origin))
              (originLeader place ranks origin)) := by
  rw [toNodeRoot, List.map_append, List.mem_append, mem_map_only, mem_map_only]
  have hsrc := process_idxOf .nodeComm (leaderOf_leaders place horigin)
  have hdst := process_zero .nodeComm (leaders place ranks (nodeOf place origin))
  simp only [Call.act, nodeId, originLeader, originRoot, nodeRoot, hsrc, hdst]
  tauto

theorem mem_onNode :
    a ∈ (onNode place ranks origin w).map Call.act ↔
      (originRoot place ranks origin ≠ originLeader place ranks origin ∧
        w ∈ leaders place ranks (nodeOf place origin)) ∧
        a = .bcast (nodeId place ranks (nodeOf place origin)) (originLeader place ranks origin) := by
  have hroot := process_idxOf .nodeComm (leaderOf_leaders place horigin)
  rw [onNode, mem_map_only]
  simp only [Call.act, nodeId, originLeader, hroot]

theorem mem_amongRoots {algorithm : Algorithm} :
    a ∈ (amongRoots place ranks origin w algorithm).map Call.act ↔
      (1 < (roots place ranks).length ∧ w ∈ roots place ranks) ∧
        a = .bcast (rootsId place ranks) (originRoot place ranks origin) := by
  have hroot := process_idxOf .nodeRootsComm (nodeRoot_roots place horigin)
  rw [amongRoots, mem_map_only]
  simp only [Call.act, rootsId, originRoot, hroot]

end

theorem mem_onNodes {served : Prop} [Decidable served] :
    a ∈ (onNodes place ranks origin w served).map Call.act ↔
      (1 < (leaders place ranks (nodeOf place w)).length ∧
        w ∈ leaders place ranks (nodeOf place w) ∧
        ¬ (served ∧ nodeOf place w = nodeOf place origin)) ∧
        a = .bcast (nodeId place ranks (nodeOf place w)) (nodeRoot place ranks (nodeOf place w)) := by
  rw [onNodes, mem_map_only]
  simp only [Call.act, nodeId, nodeRoot, process_zero]

theorem mem_inOsproc :
    a ∈ (inOsproc place ranks w).map Call.act ↔
      1 < (colocated place ranks (place.pid w)).length ∧
        a = .bcast (osprocId place ranks (place.pid w)) (leaderOf place ranks (place.pid w)) := by
  rw [inOsproc, mem_map_only]
  simp only [Call.act, osprocId, leaderOf, process_zero]

theorem mem_stages (hroot : ranks[root]? = some origin) (hw : w ∈ ranks) {route : Route} :
    a ∈ (stages place ranks root origin w route).map Call.act ↔
      Acts place ranks origin route w a := by
  have horigin : origin ∈ ranks := List.mem_of_getElem? hroot
  have hwhole : ∀ algorithm, Call.act (.bcast algorithm ⟨.comm, ranks⟩ root) =
      .bcast ⟨.comm, ranks⟩ origin := by
    intro algorithm
    rw [Call.act, process_root hroot]
  constructor
  · cases route with
    | empty => exact fun h => nomatch h
    | flat algorithm =>
      intro h
      rw [stages, List.map_singleton, List.mem_singleton, hwhole] at h
      subst h
      exact .whole trivial hw
    | short =>
      simp only [stages, List.map_append, List.mem_append, mem_toLeader horigin,
        mem_toNodeRoot horigin, mem_amongRoots horigin, mem_onNodes, mem_inOsproc]
      rintro (⟨hne, ⟨rfl, rfl⟩ | ⟨rfl, rfl⟩⟩ | (((⟨hne, ⟨rfl, rfl⟩ | ⟨rfl, rfl⟩⟩ |
        ⟨⟨hlen, hmem⟩, rfl⟩) | ⟨⟨hlen, hmem, -⟩, rfl⟩) | ⟨hlen, rfl⟩))
      · exact .sendLeader trivial hne
      · exact .recvLeader trivial hne
      · exact .sendRoot rfl hne
      · exact .recvRoot rfl hne
      · exact .amongRoots trivial hlen hmem
      · exact .onNodes trivial hlen hmem (fun hand => nomatch hand.1)
      · exact .inOsproc trivial hw hlen
    | medium =>
      simp only [stages, List.map_append, List.mem_append, mem_toLeader horigin,
        mem_onNode horigin, mem_amongRoots horigin, mem_onNodes, mem_inOsproc]
      rintro (⟨hne, ⟨rfl, rfl⟩ | ⟨rfl, rfl⟩⟩ | (((⟨⟨hne, hmem⟩, rfl⟩ |
        ⟨⟨hlen, hmem⟩, rfl⟩) | ⟨⟨hlen, hmem, hnot⟩, rfl⟩) | ⟨hlen, rfl⟩))
      · exact .sendLeader trivial hne
      · exact .recvLeader trivial hne
      · exact .onNode rfl hne hmem
      · exact .amongRoots trivial hlen hmem
      · exact .onNodes trivial hlen hmem (fun hand => hnot hand.2)
      · exact .inOsproc trivial hw hlen
    | long =>
      simp only [stages, List.map_append, List.mem_append, mem_toLeader horigin, List.map_singleton,
        List.mem_singleton, hwhole]
      rintro (⟨hne, ⟨rfl, rfl⟩ | ⟨rfl, rfl⟩⟩ | rfl)
      · exact .sendLeader trivial hne
      · exact .recvLeader trivial hne
      · exact .whole trivial hw
  · intro h
    cases h with
    | sendLeader hroute hne =>
      cases route with
      | empty => exact nomatch hroute
      | flat => exact nomatch hroute
      | short | medium | long =>
        simp only [stages, List.map_append, List.mem_append]
        exact .inl ((mem_toLeader horigin).mpr ⟨hne, .inl ⟨rfl, rfl⟩⟩)
    | recvLeader hroute hne =>
      cases route with
      | empty => exact nomatch hroute
      | flat => exact nomatch hroute
      | short | medium | long =>
        simp only [stages, List.map_append, List.mem_append]
        exact .inl ((mem_toLeader horigin).mpr ⟨hne, .inr ⟨rfl, rfl⟩⟩)
    | sendRoot hroute hne =>
      subst hroute
      simp only [stages, List.map_append, List.mem_append]
      exact .inr (.inl (.inl (.inl ((mem_toNodeRoot horigin).mpr ⟨hne, .inl ⟨rfl, rfl⟩⟩))))
    | recvRoot hroute hne =>
      subst hroute
      simp only [stages, List.map_append, List.mem_append]
      exact .inr (.inl (.inl (.inl ((mem_toNodeRoot horigin).mpr ⟨hne, .inr ⟨rfl, rfl⟩⟩))))
    | onNode hroute hne hmem =>
      subst hroute
      simp only [stages, List.map_append, List.mem_append]
      exact .inr (.inl (.inl (.inl ((mem_onNode horigin).mpr ⟨⟨hne, hmem⟩, rfl⟩))))
    | amongRoots hroute hlen hmem =>
      cases route with
      | empty => exact nomatch hroute
      | flat => exact nomatch hroute
      | long => exact nomatch hroute
      | short | medium =>
        simp only [stages, List.map_append, List.mem_append]
        exact .inr (.inl (.inl (.inr ((mem_amongRoots horigin).mpr ⟨⟨hlen, hmem⟩, rfl⟩))))
    | onNodes hroute hlen hmem hnot =>
      cases route with
      | empty => exact nomatch hroute
      | flat => exact nomatch hroute
      | long => exact nomatch hroute
      | short =>
        simp only [stages, List.map_append, List.mem_append]
        exact .inr (.inl (.inr (mem_onNodes.mpr ⟨⟨hlen, hmem, fun hand => hand.1⟩, rfl⟩)))
      | medium =>
        simp only [stages, List.map_append, List.mem_append]
        exact .inr (.inl (.inr (mem_onNodes.mpr ⟨⟨hlen, hmem, fun hand => hnot ⟨rfl, hand⟩⟩, rfl⟩)))
    | inOsproc hroute _ hlen =>
      cases route with
      | empty => exact nomatch hroute
      | flat => exact nomatch hroute
      | long => exact nomatch hroute
      | short | medium =>
        simp only [stages, List.map_append, List.mem_append]
        exact .inr (.inr (mem_inOsproc.mpr ⟨hlen, rfl⟩))
    | whole hroute _ =>
      cases route with
      | empty => exact nomatch hroute
      | short => exact nomatch hroute
      | medium => exact nomatch hroute
      | flat =>
        rw [stages, List.map_singleton, List.mem_singleton, hwhole]
      | long =>
        rw [stages, List.map_append, List.mem_append, List.map_singleton, List.mem_singleton, hwhole]
        exact .inr rfl

theorem acts_mem (horigin : origin ∈ ranks) {route : Route} (h : Acts place ranks origin route w a) :
    w ∈ ranks := by
  cases h with
  | sendLeader | recvLeader | sendRoot | recvRoot =>
    first
    | exact horigin
    | exact leaderOf_mem place horigin
    | exact nodeRoot_mem place horigin
  | onNode _ _ hmem => exact (mem_of_mem_leaders place hmem).1
  | amongRoots _ _ hmem => exact mem_ranks_of_roots place hmem
  | onNodes _ _ hmem _ => exact (mem_of_mem_leaders place hmem).1
  | inOsproc _ hw _ => exact hw
  | whole _ hw => exact hw

theorem mem_program (cv : Cvars) (hnodup : ranks.Nodup) (hroot : ranks[root]? = some origin)
    {count typeSize : Nat} :
    a ∈ program cv place ranks root count typeSize w ↔
      Acts place ranks origin (routeOf cv place ranks count typeSize) w a := by
  rw [program]
  by_cases hw : w ∈ ranks
  · rw [if_pos hw, bcastIntra_eq cv hnodup hroot hw, mem_stages hroot hw]
  · rw [if_neg hw]
    constructor
    · exact fun h => nomatch h
    · exact fun h => absurd (acts_mem (List.mem_of_getElem? hroot) h) hw

end Members

def level : Act CommId Proc → Nat
  | .send comm _ | .recv comm _ =>
    match comm.kind with
    | .osprocColocatedComm => 0
    | _ => 1
  | .bcast comm root =>
    match comm.kind with
    | .nodeComm => if comm.members.headD 0 = root then 3 else 1
    | .nodeRootsComm => 2
    | .osprocColocatedComm => 4
    | .comm => 5

structure Tier (lo hi : Nat) (calls : List Call) : Prop where
  ordered : calls.Pairwise fun c d => level c.act < level d.act
  bounds : ∀ c ∈ calls, lo ≤ level c.act ∧ level c.act < hi

theorem Tier.append {lo mid hi : Nat} {l m : List Call} (hl : Tier lo mid l) (hm : Tier mid hi m)
    (hlo : lo ≤ mid) (hhi : mid ≤ hi) : Tier lo hi (l ++ m) := by
  constructor
  · refine List.pairwise_append.mpr ⟨hl.ordered, hm.ordered, fun c hc d hd => ?_⟩
    have h1 := hl.bounds c hc
    have h2 := hm.bounds d hd
    omega
  · intro c hc
    rcases List.mem_append.mp hc with hc | hc
    · have h := hl.bounds c hc
      omega
    · have h := hm.bounds c hc
      omega

theorem tier_singleton {n : Nat} {c : Call} (h : level c.act = n) : Tier n (n + 1) [c] := by
  constructor
  · exact List.pairwise_singleton _ _
  · intro d hd
    rw [List.mem_singleton.mp hd, h]
    exact ⟨Nat.le_refl _, Nat.lt_succ_self _⟩

theorem tier_nil (n : Nat) : Tier n (n + 1) [] :=
  ⟨List.Pairwise.nil, fun _ h => nomatch h⟩

theorem tier_only {P : Prop} [Decidable P] {n : Nat} {c : Call} (h : P → level c.act = n) :
    Tier n (n + 1) (only P c) := by
  unfold only
  split
  · rename_i hP
    exact tier_singleton (h hP)
  · exact tier_nil n

theorem tier_either {P Q : Prop} [Decidable P] [Decidable Q] {n : Nat} {c d : Call}
    (hone : ¬ (P ∧ Q)) (hc : level c.act = n) (hd : level d.act = n) :
    Tier n (n + 1) (only P c ++ only Q d) := by
  by_cases hP : P
  · rw [only_neg (fun hQ => hone ⟨hP, hQ⟩), List.append_nil]
    exact tier_only fun _ => hc
  · rw [only_neg hP, List.nil_append]
    exact tier_only fun _ => hd

section Order
variable {place : Placement} {ranks : List Proc} {origin : Proc} {root : Nat} (w : Proc)

theorem toLeader_tier : Tier 0 1 (toLeader place ranks origin w) := by
  refine tier_either ?_ rfl rfl
  rintro ⟨⟨hne, rfl⟩, -, heq⟩
  exact hne heq.symm

theorem toNodeRoot_tier : Tier 1 2 (toNodeRoot place ranks origin w) := by
  refine tier_either ?_ rfl rfl
  rintro ⟨⟨hne, rfl⟩, -, heq⟩
  exact hne heq.symm

theorem level_onNode (hne : originRoot place ranks origin ≠ originLeader place ranks origin) :
    level (.bcast (nodeId place ranks (nodeOf place origin)) (originLeader place ranks origin)) = 1 :=
  if_neg hne

theorem level_onNodes (node : Nat) :
    level (.bcast (nodeId place ranks node) (nodeRoot place ranks node)) = 3 := if_pos rfl

theorem onNode_tier (horigin : origin ∈ ranks) : Tier 1 2 (onNode place ranks origin w) := by
  refine tier_only fun hand => ?_
  have hroot := process_idxOf .nodeComm (leaderOf_leaders place horigin)
  simp only [Call.act, nodeId, originLeader, hroot]
  exact level_onNode hand.1

theorem onNodes_tier (served : Prop) [Decidable served] : Tier 3 4 (onNodes place ranks origin w served) := by
  refine tier_only fun _ => ?_
  rw [Call.act, nodeId, process_zero]
  exact level_onNodes _

theorem amongRoots_tier (algorithm : Algorithm) :
    Tier 2 3 (amongRoots place ranks origin w algorithm) := tier_only fun _ => rfl

theorem inOsproc_tier : Tier 4 6 (inOsproc place ranks w) := by
  have h : Tier 4 5 (inOsproc place ranks w) := tier_only fun _ => rfl
  exact ⟨h.ordered, fun c hc => ⟨(h.bounds c hc).1, Nat.lt_succ_of_lt (h.bounds c hc).2⟩⟩

theorem nested_tier {first : List Call} (hfirst : Tier 1 2 first) (algorithm : Algorithm)
    (served : Prop) [Decidable served] :
    Tier 1 6 (first ++ amongRoots place ranks origin w algorithm ++
      onNodes place ranks origin w served ++ inOsproc place ranks w) := by
  refine Tier.append (Tier.append (Tier.append hfirst (amongRoots_tier w algorithm) ?_ ?_)
    (onNodes_tier w served) ?_ ?_) (inOsproc_tier w) ?_ ?_
  all_goals decide

theorem stages_tier (horigin : origin ∈ ranks) (route : Route) :
    Tier 0 6 (stages place ranks root origin w route) := by
  have hwhole : ∀ algorithm, Tier 5 6 [Call.bcast algorithm ⟨.comm, ranks⟩ root] :=
    fun _ => tier_singleton rfl
  cases route with
  | empty => exact ⟨List.Pairwise.nil, fun _ h => nomatch h⟩
  | flat algorithm =>
    exact ⟨(hwhole algorithm).ordered,
      fun c hc => ⟨Nat.zero_le _, ((hwhole algorithm).bounds c hc).2⟩⟩
  | short =>
    exact (toLeader_tier w).append (nested_tier w (toNodeRoot_tier w) .binomial False)
      (by decide) (by decide)
  | medium =>
    exact (toLeader_tier w).append
      (nested_tier w (onNode_tier w horigin) (rootsAlgorithm place ranks) _) (by decide) (by decide)
  | long =>
    have hlast : Tier 1 6 [Call.bcast .scatterRingAllgather ⟨.comm, ranks⟩ root] :=
      ⟨(hwhole _).ordered, fun c hc => ⟨Nat.le_trans (by decide) ((hwhole _).bounds c hc).1,
        ((hwhole _).bounds c hc).2⟩⟩
    exact (toLeader_tier w).append hlast (by decide) (by decide)

theorem program_ordered (cv : Cvars) (hnodup : ranks.Nodup) (hroot : ranks[root]? = some origin)
    (count typeSize : Nat) :
    (program cv place ranks root count typeSize w).Pairwise fun a b => level a < level b := by
  rw [program]
  split
  · rename_i hw
    rw [bcastIntra_eq cv hnodup hroot hw, List.pairwise_map]
    exact (stages_tier w (List.mem_of_getElem? hroot) _).ordered
  · exact List.Pairwise.nil

end Order

section Informed
variable {place : Placement} {ranks : List Proc} {origin w : Proc} {route : Route}

def Got (place : Placement) (ranks : List Proc) (origin : Proc) (route : Route) (w : Proc) (n : Nat) :
    Prop :=
  ∃ b, Acts place ranks origin route w b ∧ b.Receives w ∧ level b < n

theorem Got.mono {n m : Nat} (h : Got place ranks origin route w n) (hle : n ≤ m) :
    Got place ranks origin route w m := by
  obtain ⟨b, hb, hr, hlt⟩ := h
  exact ⟨b, hb, hr, Nat.lt_of_lt_of_le hlt hle⟩

theorem nested_hierarchical (h : route.nested) : route.hierarchical := by
  cases route <;> trivial

theorem got_leader (hroute : route.hierarchical) (hne : originLeader place ranks origin ≠ origin) :
    Got place ranks origin route (originLeader place ranks origin) 1 :=
  ⟨_, .recvLeader hroute hne, trivial, Nat.one_pos⟩

section
variable (horigin : origin ∈ ranks)
include horigin

theorem got_root (hroute : route.nested) (hne : originRoot place ranks origin ≠ origin) :
    Got place ranks origin route (originRoot place ranks origin) 2 := by
  by_cases hlead : originRoot place ranks origin = originLeader place ranks origin
  · rw [hlead] at hne ⊢
    exact (got_leader (nested_hierarchical hroute) hne).mono (by decide)
  · cases route with
    | short => exact ⟨_, .recvRoot rfl hlead, trivial, Nat.one_lt_two⟩
    | medium =>
      refine ⟨_, .onNode rfl hlead (nodeRoot_leaders place horigin), hlead, ?_⟩
      rw [level_onNode hlead]
      decide
    | empty | flat | long => exact nomatch hroute

theorem got_roots (hroute : route.nested) (hw : w ∈ roots place ranks)
    (hne : w ≠ origin) : Got place ranks origin route w 3 := by
  by_cases hroot : w = originRoot place ranks origin
  · rw [hroot] at hne ⊢
    exact (got_root horigin hroute hne).mono (by decide)
  · have hlen := one_lt_length hw (nodeRoot_roots place horigin) hroot
    exact ⟨_, .amongRoots hroute hlen hw, hroot, Nat.lt_succ_self 2⟩

theorem got_leaders (hroute : route.nested)
    (hw : w ∈ leaders place ranks (nodeOf place w)) (hne : w ≠ origin) :
    Got place ranks origin route w 4 := by
  have hmem := (mem_of_mem_leaders place hw).1
  by_cases hroot : w ∈ roots place ranks
  · exact (got_roots horigin hroute hroot hne).mono (by decide)
  · have hnot : w ≠ nodeRoot place ranks (nodeOf place w) :=
      fun heq => hroot ((mem_roots_iff_eq place hmem).mpr heq.symm)
    by_cases hserved : route = .medium ∧
        originRoot place ranks origin ≠ originLeader place ranks origin ∧
        nodeOf place w = nodeOf place origin
    · obtain ⟨hmedium, hlead, hnode⟩ := hserved
      by_cases hself : w = originLeader place ranks origin
      · rw [hself] at hne ⊢
        exact (got_leader (nested_hierarchical hroute) hne).mono (by decide)
      · refine ⟨_, .onNode hmedium hlead (hnode ▸ hw), hself, ?_⟩
        rw [level_onNode hlead]
        decide
    · refine ⟨_, .onNodes hroute (one_lt_length hw (nodeRoot_leaders place hmem) hnot) hw hserved, hnot, ?_⟩
      rw [level_onNodes]
      decide

theorem got_all (hroute : route ≠ .empty) (hw : w ∈ ranks)
    (hne : w ≠ origin) : Got place ranks origin route w 6 := by
  have hwhole : route.whole → Got place ranks origin route w 6 :=
    fun h => ⟨_, .whole h hw, hne, Nat.lt_succ_self 5⟩
  have hnested : route.nested → Got place ranks origin route w 6 := by
    intro h
    by_cases hlead : w = leaderOf place ranks (place.pid w)
    · have hmem := (mem_leaders_iff_eq place hw).mpr hlead.symm
      exact (got_leaders horigin h hmem hne).mono (by decide)
    · have hlen := one_lt_length (mem_colocated place hw) (leaderOf_colocated place hw) hlead
      exact ⟨_, .inOsproc h hw hlen, hlead, Nat.lt_succ_of_lt (Nat.lt_succ_self 4)⟩
  cases route with
  | empty => exact absurd rfl hroute
  | flat => exact hwhole trivial
  | long => exact hwhole trivial
  | short => exact hnested trivial
  | medium => exact hnested trivial

theorem acts_informed {a : Act CommId Proc} (h : Acts place ranks origin route w a) (hsends : a.Sends w) :
    w = origin ∨ Got place ranks origin route w (level a) := by
  by_cases hself : w = origin
  · exact .inl hself
  · refine .inr ?_
    cases h with
    | sendLeader => exact absurd rfl hself
    | recvLeader => exact nomatch hsends
    | recvRoot => exact nomatch hsends
    | sendRoot hroute hlead =>
      subst hroute
      exact got_leader trivial hself
    | onNode hroute hlead _ =>
      subst hroute
      have hw : w = originLeader place ranks origin := hsends
      subst hw
      rw [level_onNode hlead]
      exact got_leader trivial hself
    | amongRoots hroute _ _ =>
      have hw : w = originRoot place ranks origin := hsends
      subst hw
      exact got_root horigin hroute hself
    | onNodes hroute _ hmem _ =>
      have hw : w = nodeRoot place ranks (nodeOf place w) := hsends
      have hranks := (mem_of_mem_leaders place hmem).1
      rw [level_onNodes]
      exact got_roots horigin hroute ((mem_roots_iff_eq place hranks).mpr hw.symm) hself
    | inOsproc hroute hranks _ =>
      have hw : w = leaderOf place ranks (place.pid w) := hsends
      exact got_leaders horigin hroute ((mem_leaders_iff_eq place hranks).mpr hw.symm) hself
    | whole => exact absurd hsends hself

end

end Informed

section Agreement
variable {place : Placement} {ranks : List Proc} {origin w : Proc} {route : Route} {root : Nat}

def rootFor (place : Placement) (ranks : List Proc) (origin : Proc) (route : Route) (w : Proc) :
    Kind → Proc
  | .comm => origin
  | .nodeRootsComm => originRoot place ranks origin
  | .nodeComm =>
    if route = .medium ∧ originRoot place ranks origin ≠ originLeader place ranks origin ∧
      nodeOf place w = nodeOf place origin then originLeader place ranks origin
    else nodeRoot place ranks (nodeOf place w)
  | .osprocColocatedComm => leaderOf place ranks (place.pid w)

theorem acts_root {comm : CommId} {r : Proc} (h : Acts place ranks origin route w (.bcast comm r)) :
    r = rootFor place ranks origin route w comm.kind := by
  cases h with
  | onNode hroute hne hmem =>
    exact (if_pos ⟨hroute, hne, (mem_of_mem_leaders place hmem).2⟩).symm
  | amongRoots => rfl
  | onNodes _ _ _ hnot => exact (if_neg hnot).symm
  | inOsproc => rfl
  | whole => rfl

theorem acts_member (horigin : origin ∈ ranks) {comm : CommId} {r : Proc}
    (h : Acts place ranks origin route w (.bcast comm r)) :
    w ∈ comm.members ∧ r ∈ comm.members ∧
      ∀ q ∈ comm.members, Acts place ranks origin route q (.bcast comm r) := by
  cases h with
  | onNode hroute hne hmem =>
    exact ⟨hmem, leaderOf_leaders place horigin, fun q hq => .onNode hroute hne hq⟩
  | amongRoots hroute hlen hmem =>
    exact ⟨hmem, nodeRoot_roots place horigin, fun q hq => .amongRoots hroute hlen hq⟩
  | onNodes hroute hlen hmem hnot =>
    refine ⟨hmem, nodeRoot_leaders place (mem_of_mem_leaders place hmem).1, fun q hq => ?_⟩
    have hnode := (mem_of_mem_leaders place hq).2
    rw [← hnode] at hlen hnot
    have hact := @Acts.onNodes place ranks origin route q hroute hlen (hnode.symm ▸ hq) hnot
    rw [hnode] at hact
    exact hact
  | inOsproc hroute hranks hlen =>
    refine ⟨mem_colocated place hranks, leaderOf_colocated place hranks, fun q hq => ?_⟩
    have hpid : place.pid q = place.pid w := by simpa using (List.mem_filter.mp hq).2
    rw [← hpid] at hlen
    have hact := @Acts.inOsproc place ranks origin route q hroute (List.mem_of_mem_filter hq) hlen
    rw [hpid] at hact
    exact hact
  | whole hroute hranks => exact ⟨hranks, horigin, fun q hq => .whole hroute hq⟩

theorem program_agreed (place : Placement) (cv : Cvars) (hnodup : ranks.Nodup) (hroot : ranks[root]? = some origin)
    (count typeSize : Nat) :
    Agreed CommId.members (program cv place ranks root count typeSize) origin level := by
  have horigin : origin ∈ ranks := List.mem_of_getElem? hroot
  have hmem : ∀ {p a}, a ∈ program cv place ranks root count typeSize p ↔ Acts place ranks origin
      (routeOf cv place ranks count typeSize) p a := mem_program cv hnodup hroot
  refine ⟨fun p => program_ordered p cv hnodup hroot count typeSize, ?_, ?_, ?_, ?_, ?_, ?_, ?_⟩
  · intro p k dst h
    rw [hmem] at h ⊢
    cases h with
    | sendLeader hroute hne => exact .recvLeader hroute hne
    | sendRoot hroute hne => exact .recvRoot hroute hne
  · intro p k src h
    rw [hmem] at h ⊢
    cases h with
    | recvLeader hroute hne => exact .sendLeader hroute hne
    | recvRoot hroute hne => exact .sendRoot hroute hne
  · intro p k dst _
    rfl
  · intro p k r h
    rw [hmem] at h
    obtain ⟨-, hr, hall⟩ := acts_member horigin h
    exact ⟨hr, fun q hq => hmem.mpr (hall q hq)⟩
  · intro p k r h
    rw [hmem] at h
    exact (acts_member horigin h).1
  · intro p k r r' h h'
    rw [hmem] at h h'
    rw [acts_root h, acts_root h']
  · intro p a h hsends
    rw [hmem] at h
    refine (acts_informed horigin h hsends).imp_right ?_
    rintro ⟨b, hb, hr, hlt⟩
    exact ⟨b, hmem.mpr hb, hr, hlt⟩

theorem bcastsOn_append (comm : CommId) (l m : List Call) :
    bcastsOn comm (l ++ m) = bcastsOn comm l ++ bcastsOn comm m := List.filterMap_append

theorem bcastsOn_only (comm : CommId) {P : Prop} [Decidable P] {algorithm : Algorithm} {c : CommId}
    {r : Nat} : bcastsOn comm (only P (.bcast algorithm c r)) =
      if P ∧ c = comm then [(algorithm, r)] else [] := by
  unfold only
  by_cases hP : P <;> by_cases hc : c = comm <;> simp [bcastsOn, Call.on, hP, hc]

theorem only_agree (comm : CommId) {P Q : Prop} [Decidable P] [Decidable Q] {algorithm : Algorithm}
    {c d : CommId} {r : Nat} (h : P ∧ c = comm ↔ Q ∧ d = comm) :
    bcastsOn comm (only P (.bcast algorithm c r)) = bcastsOn comm (only Q (.bcast algorithm d r)) := by
  rw [bcastsOn_only, bcastsOn_only]
  exact if_congr h rfl rfl

theorem bcastsOn_toLeader (comm : CommId) : bcastsOn comm (toLeader place ranks origin w) = [] := by
  unfold toLeader only
  split <;> split <;> rfl

theorem bcastsOn_toNodeRoot (comm : CommId) : bcastsOn comm (toNodeRoot place ranks origin w) = [] := by
  unfold toNodeRoot only
  split <;> split <;> rfl

variable {comm : CommId} {p q : Proc}

section
variable (hp : p ∈ comm.members) (hq : q ∈ comm.members)
include hp hq

theorem onNode_agree :
    bcastsOn comm (onNode place ranks origin p) = bcastsOn comm (onNode place ranks origin q) := by
  refine only_agree comm ⟨?_, ?_⟩
  · rintro ⟨⟨hne, -⟩, rfl⟩
    exact ⟨⟨hne, hq⟩, rfl⟩
  · rintro ⟨⟨hne, -⟩, rfl⟩
    exact ⟨⟨hne, hp⟩, rfl⟩

theorem amongRoots_agree (algorithm : Algorithm) :
    bcastsOn comm (amongRoots place ranks origin p algorithm) =
      bcastsOn comm (amongRoots place ranks origin q algorithm) := by
  refine only_agree comm ⟨?_, ?_⟩
  · rintro ⟨⟨hlen, -⟩, rfl⟩
    exact ⟨⟨hlen, hq⟩, rfl⟩
  · rintro ⟨⟨hlen, -⟩, rfl⟩
    exact ⟨⟨hlen, hp⟩, rfl⟩

theorem onNodes_agree (served : Prop)
    [Decidable served] : bcastsOn comm (onNodes place ranks origin p served) =
      bcastsOn comm (onNodes place ranks origin q served) := by
  refine only_agree comm ⟨?_, ?_⟩
  · rintro ⟨⟨hlen, -, hnot⟩, rfl⟩
    have hnode := (mem_of_mem_leaders place hq).2
    rw [hnode]
    exact ⟨⟨hlen, hq, hnot⟩, rfl⟩
  · rintro ⟨⟨hlen, -, hnot⟩, rfl⟩
    have hnode := (mem_of_mem_leaders place hp).2
    rw [hnode]
    exact ⟨⟨hlen, hp, hnot⟩, rfl⟩

theorem inOsproc_agree : bcastsOn comm (inOsproc place ranks p) = bcastsOn comm (inOsproc place ranks q) := by
  refine only_agree comm ⟨?_, ?_⟩
  · rintro ⟨hlen, rfl⟩
    have hpid : place.pid q = place.pid p := by simpa using (List.mem_filter.mp hq).2
    rw [hpid]
    exact ⟨hlen, rfl⟩
  · rintro ⟨hlen, rfl⟩
    have hpid : place.pid p = place.pid q := by simpa using (List.mem_filter.mp hp).2
    rw [hpid]
    exact ⟨hlen, rfl⟩

theorem stages_agree (route : Route) :
    bcastsOn comm (stages place ranks root origin p route) =
      bcastsOn comm (stages place ranks root origin q route) := by
  cases route with
  | empty => rfl
  | flat => rfl
  | short =>
    simp only [stages, bcastsOn_append, bcastsOn_toLeader, bcastsOn_toNodeRoot]
    rw [amongRoots_agree hp hq, onNodes_agree hp hq, inOsproc_agree hp hq]
  | medium =>
    simp only [stages, bcastsOn_append, bcastsOn_toLeader]
    rw [onNode_agree hp hq, amongRoots_agree hp hq, onNodes_agree hp hq, inOsproc_agree hp hq]
  | long => simp only [stages, bcastsOn_append, bcastsOn_toLeader]

end

theorem bcastsOn_outside (hroot : ranks[root]? = some origin) (hw : w ∈ ranks) (route : Route)
    (hnot : w ∉ comm.members) : bcastsOn comm (stages place ranks root origin w route) = [] := by
  refine List.filterMap_eq_nil_iff.mpr fun c hc => ?_
  cases c with
  | send => rfl
  | recv => rfl
  | bcast algorithm c r =>
    have hact := (mem_stages hroot hw).mp (List.mem_map_of_mem hc)
    refine if_neg ?_
    rintro rfl
    exact hnot (acts_member (List.mem_of_getElem? hroot) hact).1

end Agreement

end FgMpi.Coll.SmpBcast
