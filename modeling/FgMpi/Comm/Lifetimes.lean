import FgMpi.Comm.Shapes

namespace FgMpi.Comm.Lifetimes
open Machine.Outcome Machine.Runs
open Comm.NestedMaps Comm.SharedVars Comm.Communicator Comm.Ledger
open Comm.Changes Comm.Shapes

def MapAlive (h : Heap) (m : Option MapRef) : Prop :=
  ∃ k a, m = some k ∧ h.maps[k]? = some a ∧ a.kills = 0

def CellAlive (h : Heap) (x : CellRef) : Prop := ∃ cell, h.cells[x]? = some cell ∧ cell.freed = false

structure Alive (w : World) : Prop where
  comm : ∀ (ci : CommRef) c, w.comms[ci]? = some c → c.live = true →
    ∃ co, w.heap.cos[c.co]? = some co ∧ co.freed = false ∧ MapAlive w.heap co.rtwMap ∧
      CellAlive w.heap co.across
  group : ∀ (j : GroupRef) g, w.heap.groups[j]? = some g → 0 < g.handles →
    MapAlive w.heap g.rtwGrpMap ∧ ∀ x, g.ref = some x → CellAlive w.heap x
  once : ∀ (m : MapRef) a, w.heap.maps[m]? = some a → a.kills ≤ 1

section Balance
variable {h : Heap}

theorem cell_map_alive (hb : Balanced h) {x : CellRef} {cell : Cell} (hx : h.cells[x]? = some cell)
    (hfreed : cell.freed = false) : MapAlive h (some cell.guards) := by
  obtain ⟨a, ha, hk⟩ := hb.alive _ _ _ (guard_of_cell hx)
  exact ⟨cell.guards, a, rfl, ha, hk hfreed⟩

theorem co_alive (hb : Balanced h) {i : CoRef} {co : Co} (hi : h.cos[i]? = some co)
    (hco : co.freed = false) : MapAlive h co.rtwMap ∧ CellAlive h co.across := by
  obtain ⟨cell, hcell, hfreed, hm, _⟩ := hb.co_cell hi hco
  rw [hm]
  exact ⟨cell_map_alive hb hcell hfreed, cell, hcell, hfreed⟩

theorem group_alive (hb : Balanced h) {j : GroupRef} {g : Group} (hj : h.groups[j]? = some g)
    (hpos : 0 < g.handles) :
    MapAlive h g.rtwGrpMap ∧ ∀ x, g.ref = some x → CellAlive h x := by
  rcases Option.eq_none_or_eq_some g.ref with href | ⟨x, href⟩
  · obtain ⟨_, m, hm, hprivate⟩ := hb.loose j g hj ⟨href, hpos⟩
    obtain ⟨a, ha, hk⟩ := hprivate.alive
    refine ⟨⟨m, a, hm, ha, hk⟩, ?_⟩
    intro x hx
    rw [href] at hx
    cases hx
  · obtain ⟨cell, hcell, hfreed, hm, _⟩ := hb.group_cell hj href hpos
    rw [hm]
    refine ⟨cell_map_alive hb hcell hfreed, ?_⟩
    intro y hy
    rw [href] at hy
    cases hy
    exact ⟨cell, hcell, hfreed⟩

end Balance

theorem orderly_alive {place : Placement} {w : World} (ho : Orderly place w) : Alive w where
  comm ci c hc hlive := by
    obtain ⟨co, hi, hco⟩ := ho.registered.co_of hc hlive
    exact ⟨co, hi, hco, co_alive ho.registered.balanced hi hco⟩
  group _ _ hj hpos := group_alive ho.registered.balanced hj hpos
  once := ho.registered.balanced.once

/-- The counts are kept along the run, so every map outlives its users; no step uses a map, a count
or shared variables that were freed. -/
theorem maps_outlive_users (place : Placement) (ops : List Op)
    (hcond : Along (step place) (KeepsCounts place) (World.init place) ops) :
    Yields NoUse (run (step place) (World.init place) ops) Alive := by
  refine Yields.mono (Yields.run ?_ (init_orderly place) hcond) fun w => orderly_alive
  intro w o ho hcond
  exact (step_orderly ho o hcond).mono fun w' h => h.2

def pair : Placement := ⟨2, 1, fun _ => 0, fun _ => 0, fun _ _ => Nat.one_pos⟩

def noJunk : Nat → Proc := fun _ => 0

def groupsOps : List Op :=
  [.init 0 noJunk, .init 1 noJunk, .commGroup 0, .groupIncl 0 [0, 1], .commGroup 1,
    .groupIncl 2 [0, 1], .agree 48 [(0, .createIntra 1), (1, .createIntra 3)], .attach 0 noJunk,
    .attach 1 noJunk]

def driftOps : List Op := groupsOps ++
  [.commGroup 5, .commGroup 5, .groupIncl 0 [0, 1],
    .agree 64 [(0, .createIntra 4), (1, .createIntra 3)], .attach 0 noJunk, .attach 1 noJunk,
    .groupFree 3, .groupFree 3, .groupFree 3, .groupFree 4]

def mapOf (w : World) (ci : CommRef) : Option RtwMap := do
  let c ← w.comms[ci]?.filter Intracomm.live
  let co ← w.heap.cos[c.co]?
  let m ← co.rtwMap
  w.heap.maps[m]?

theorem map_lost_under_communicator :
    ∃ w, run (step pair) (World.init pair) driftOps = .ok w ∧ ¬ Alive w := by
  have hmap : (run (step pair) (World.init pair) driftOps).toOption.bind (fun w => mapOf w 6) =
      some ⟨[0, 1], 1⟩ := by decide +kernel
  cases hrun : run (step pair) (World.init pair) driftOps with
  | error e => rw [hrun] at hmap; cases hmap
  | ok w =>
    refine ⟨w, rfl, ?_⟩
    intro halive
    rw [hrun] at hmap
    change mapOf w 6 = _ at hmap
    unfold mapOf at hmap
    obtain ⟨c, hc, hmap⟩ := Option.bind_eq_some_iff.mp hmap
    obtain ⟨co, hco, hmap⟩ := Option.bind_eq_some_iff.mp hmap
    obtain ⟨m, hm, hmap⟩ := Option.bind_eq_some_iff.mp hmap
    obtain ⟨hc, hlive⟩ := Option.filter_eq_some_iff.mp hc
    obtain ⟨co', hco', _, ⟨k, a, hk, ha, hkills⟩, _⟩ := halive.comm 6 c hc hlive
    rw [hco] at hco'
    cases hco'
    rw [hm] at hk
    cases hk
    rw [hmap] at ha
    cases ha
    cases hkills

theorem maps_outlive_users_groups :
    Along (step pair) (KeepsCounts pair) (World.init pair) groupsOps ∧
      Yields NoUse (run (step pair) (World.init pair) groupsOps) Alive := by
  have hcond : Along (step pair) (KeepsCounts pair) (World.init pair) groupsOps := by
    decide +kernel
  exact ⟨hcond, maps_outlive_users pair groupsOps hcond⟩

end FgMpi.Comm.Lifetimes
