import FgMpi.ContextId.Places
import Mathlib.Algebra.Order.BigOperators.Group.List
import Mathlib.Algebra.Order.Group.Nat

/-! One allocation at a time. -/

namespace FgMpi.ContextId.Completeness
open ContextId.Mask ContextId.Allocation ContextId.Reductions ContextId.Places
open Function (update update_eq_self update_of_ne update_self)

section Runs
variable (cfg : Config) (a : AllocId) (w₀ : World)

structure Participant (o : Op) : Prop where
  member : o.proc ∈ (cfg.alloc a).members
  alloc : o.alloc = a
  act : CallAct o.act

/-- The worlds reached while the participants run this allocation only, in any order, and the others
whatever they like; with the number of the participants' steps that changed something. -/
inductive Runs : Nat → World → Prop
  | start : Runs 0 w₀
  | act {n : Nat} {w w' : World} {o : Op} (hrun : Runs n w) (ho : Participant cfg a o)
    (hstep : step cfg w o = .ok w') (hne : w' ≠ w) : Runs (n + 1) w'
  | others {n : Nat} {w w' : World} (hrun : Runs n w)
    (hsame : ∀ p ∈ (cfg.alloc a).members, w' p = w p) : Runs n w'

structure At (places : Proc → Place) (w : World) : Prop where
  state : ∀ p ∈ (cfg.alloc a).members, w p = localAt cfg a w₀ p (places p)
  possible : ∀ p ∈ (cfg.alloc a).members, Possible cfg a w₀ (places p)

variable {cfg a w₀} {w w' : World} {places : Proc → Place} {p : Proc} {n : Nat}

theorem at_idle_of_quiet (hquiet : Quiet cfg a w₀) : At cfg a w₀ (fun _ => .idle) w₀ := by
  constructor
  · intro p hp
    obtain ⟨hready, hgcn, hsent⟩ := hquiet p hp
    apply localAt_eq rfl hready.eagerInUse hready.maskInUse hready.nextGcn
    · rw [gcnAt, ← hgcn, update_eq_self]
    · rw [sentAt, ← hsent, update_eq_self]
  · intro p hp
    trivial

theorem sentAt_zero (place : Place) : sentAt cfg a w₀ p place 0 =
    if 2 ≤ place.rank then some (first cfg a w₀ p) else none := by
  cases place <;> rfl

theorem sentAt_one (place : Place) : sentAt cfg a w₀ p place 1 =
    if 5 ≤ place.rank then some (second cfg a w₀ p) else none := by
  cases place <;> rfl

theorem allreduce_eq {c : Proc → Contribution} {k rank : Nat}
    (hsent : ∀ q ∈ (cfg.alloc a).members, (w q).sent a k =
      if rank ≤ (places q).rank then some (c q) else none) :
    allreduce cfg w a k = if decide (∀ q ∈ (cfg.alloc a).members, rank ≤ (places q).rank) = true then
      some (reduce cfg a c) else none := by
  unfold allreduce
  by_cases hall : ∀ q ∈ (cfg.alloc a).members, rank ≤ (places q).rank
  · have hsome : ∀ q ∈ (cfg.alloc a).members, (w q).sent a k = some (c q) := by
      intro q hq
      rw [hsent q hq, if_pos (hall q hq)]
    have hget : ∀ q ∈ (cfg.alloc a).members, ((w q).sent a k).getD (fun _ => 0, false) = c q := by
      intro q hq
      rw [hsome q hq]
      rfl
    rw [if_pos (decide_eq_true hall), if_pos fun q hq => by rw [hsome q hq]; rfl, reduce]
    congr 2
    · funext i
      congr 1
      exact List.map_congr_left fun q hq => by rw [hget q hq]
    · rw [Bool.eq_iff_iff, List.all_eq_true, List.all_eq_true]
      exact forall₂_congr fun q hq => by rw [hget q hq]
  · have hincomplete : ¬ ∀ q ∈ (cfg.alloc a).members, ((w q).sent a k).isSome = true := by
      intro hsome
      apply hall
      intro q hq
      have hq' := hsome q hq
      rw [hsent q hq] at hq'
      by_contra hlt
      rw [if_neg hlt] at hq'
      cases hq'
    rw [if_neg hincomplete, if_neg (by rw [decide_eq_true_iff]; exact hall)]

def complete (cfg : Config) (a : AllocId) (places : Proc → Place) (p : Proc) : Bool :=
  decide (∀ q ∈ (cfg.alloc a).members, (places p).rank ≤ (places q).rank)

theorem step_at (hquiet : Quiet cfg a w₀) (hblocking : (cfg.alloc a).blocking = true)
    (hat : At cfg a w₀ places w) {o : Op} (ho : Participant cfg a o) :
    step cfg w o = .ok (update w o.proc (localAt cfg a w₀ o.proc
      (nextPlace cfg a w₀ (complete cfg a places o.proc) (places o.proc) o.act))) := by
  obtain ⟨p, b, act⟩ := o
  obtain rfl : b = a := ho.alloc
  have hp : p ∈ (cfg.alloc b).members := ho.member
  have hsent : ∀ q ∈ (cfg.alloc b).members, ∀ k, (w q).sent b k = sentAt cfg b w₀ q (places q) k := by
    intro q hq k
    rw [hat.state q hq, localAt_sent]
  have hfirst : places p = .waiting → allreduce cfg w b ((w p).gcn b).iter =
      if complete cfg b places p then some (reduce cfg b (first cfg b w₀)) else none := by
    intro hplace
    rw [hat.state p hp, localAt_gcn, hplace, complete, hplace]
    exact allreduce_eq fun q hq => (hsent q hq 0).trans (sentAt_zero _)
  have hsecond : places p = .waitingAgain → allreduce cfg w b ((w p).gcn b).iter =
      if complete cfg b places p then some (reduce cfg b (second cfg b w₀)) else none := by
    intro hplace
    rw [hat.state p hp, localAt_gcn, hplace, complete, hplace]
    exact allreduce_eq fun q hq => (hsent q hq 1).trans (sentAt_one _)
  have hlocal := localStep_at hp (hquiet p hp).1 hblocking ho.act hfirst hsecond
  rw [← hat.state p hp] at hlocal
  unfold step
  rw [hlocal]
  rfl

variable {place : Place}

theorem At.next (hat : At cfg a w₀ places w) (p : Proc) (hpossible : Possible cfg a w₀ place) :
    At cfg a w₀ (update places p place) (update w p (localAt cfg a w₀ p place)) := by
  constructor
  · intro q hq
    by_cases hqp : q = p
    · rw [hqp, update_self, update_self]
    · rw [update_of_ne hqp, update_of_ne hqp]
      exact hat.state q hq
  · intro q hq
    by_cases hqp : q = p
    · rw [hqp, update_self]
      exact hpossible
    · rw [update_of_ne hqp]
      exact hat.possible q hq

theorem Runs.at_places (hquiet : Quiet cfg a w₀) (hblocking : (cfg.alloc a).blocking = true)
    (hrun : Runs cfg a w₀ n w) : ∃ places, At cfg a w₀ places w ∧
      n ≤ ((cfg.alloc a).members.map fun p => (places p).rank).sum := by
  induction hrun with
  | start => exact ⟨_, at_idle_of_quiet hquiet, Nat.zero_le _⟩
  | @act n w w' o _ ho hstep hne ih =>
    obtain ⟨places, hat, hn⟩ := ih
    have hstep' := step_at hquiet hblocking hat ho
    obtain rfl := Except.ok.inj (hstep.symm.trans hstep')
    refine ⟨update places o.proc _, hat.next o.proc (possible_next
      (hat.possible _ ho.member) (complete cfg a places o.proc) o.act), ?_⟩
    rcases rank_next cfg a w₀ (complete cfg a places o.proc) (places o.proc) o.act with hsame | hlt
    · rw [hsame, ← hat.state _ ho.member, update_eq_self] at hne
      exact absurd rfl hne
    · have hsum : ((cfg.alloc a).members.map fun p => (places p).rank).sum <
          ((cfg.alloc a).members.map fun p => (update places o.proc (nextPlace cfg a w₀
            (complete cfg a places o.proc) (places o.proc) o.act) p).rank).sum := by
        apply List.sum_lt_sum
        · intro q _
          by_cases hq : q = o.proc
          · rw [hq, update_self]
            exact Nat.le_of_lt hlt
          · rw [update_of_ne hq]
        · refine ⟨o.proc, ho.member, ?_⟩
          rw [update_self]
          exact hlt
      omega
  | others _ hsame ih =>
    obtain ⟨places, hat, hn⟩ := ih
    exact ⟨places, ⟨fun p hp => (hsame p hp).trans (hat.state p hp), hat.possible⟩, hn⟩

theorem phase_next (complete : Bool) (place : Place) (act : Act)
    (h : (gcnAt cfg a w₀ p (nextPlace cfg a w₀ complete place act)).phase = (gcnAt cfg a w₀ p place).phase) :
    nextPlace cfg a w₀ complete place act = place := by
  unfold nextPlace at h ⊢
  split at h <;> (try split at h) <;> simp_all

theorem four_le_rank (h : place.Returned) : 4 ≤ place.rank := by
  cases place with
  | done => decide
  | doneAgain => decide
  | failed => decide
  | _ => exact h.elim

theorem five_le_rank (h : place.Returned) (hne : place ≠ .done) : 5 ≤ place.rank := by
  cases place with
  | done => exact absurd rfl hne
  | doneAgain => decide
  | failed => decide
  | _ => exact h.elim

theorem returned_or_waits {complete : Bool}
    (h : ∀ act, CallAct act → nextPlace cfg a w₀ complete place act = place) :
    place.Returned ∨ place = .waiting ∧ complete = false ∨
      place = .waitingAgain ∧ complete = false := by
  cases place with
  | idle => exact nomatch h .start trivial
  | reserving => exact nomatch h .reserve trivial
  | waiting =>
    cases complete with
    | true => exact nomatch h .take trivial
    | false => exact .inr (.inl ⟨rfl, rfl⟩)
  | settling =>
    have hsettle : (if firstId cfg a w₀ = 0 then Place.reservingAgain else .done) = .settling :=
      h .settle trivial
    split at hsettle <;> cases hsettle
  | reservingAgain => exact nomatch h .reserve trivial
  | waitingAgain =>
    cases complete with
    | true => exact nomatch h .take trivial
    | false => exact .inr (.inr ⟨rfl, rfl⟩)
  | settlingAgain =>
    have hsettle : (if secondId cfg a w₀ = 0 then Place.exhausted else .doneAgain) = .settlingAgain :=
      h .settle trivial
    split at hsettle <;> cases hsettle
  | exhausted => exact nomatch h .release trivial
  | failing => exact nomatch h .fail trivial
  | done => exact .inl trivial
  | doneAgain => exact .inl trivial
  | failed => exact .inl trivial

theorem phase_eq_done (h : (gcnAt cfg a w₀ p place).phase = .done) : place = .done ∨ place = .doneAgain := by
  cases place with
  | done => exact .inl rfl
  | doneAgain => exact .inr rfl
  | _ => cases h

theorem phase_eq_failed (h : (gcnAt cfg a w₀ p place).phase = .failed) : place = .failed := by
  cases place with
  | failed => rfl
  | _ => cases h

theorem phase_of_returned (h : place.Returned) :
    (gcnAt cfg a w₀ p place).phase = .done ∨ (gcnAt cfg a w₀ p place).phase = .failed := by
  cases place with
  | done => exact .inl rfl
  | doneAgain => exact .inl rfl
  | failed => exact .inr rfl
  | _ => exact h.elim

theorem At.returned (hquiet : Quiet cfg a w₀) (hblocking : (cfg.alloc a).blocking = true)
    (hat : At cfg a w₀ places w) (hstuck : ∀ o, Participant cfg a o → step cfg w o = .ok w)
    (hp : p ∈ (cfg.alloc a).members) : (places p).Returned := by
  have hstays : ∀ q ∈ (cfg.alloc a).members, ∀ act, CallAct act →
      nextPlace cfg a w₀ (complete cfg a places q) (places q) act = places q := by
    intro q hq act hact
    have ho : Participant cfg a ⟨q, a, act⟩ := ⟨hq, rfl, hact⟩
    have hstep := Except.ok.inj ((step_at hquiet hblocking hat ho).symm.trans (hstuck _ ho))
    have hlocal := congrFun hstep q
    rw [update_self, hat.state q hq] at hlocal
    have hphase := congrArg (fun l : Local => (l.gcn a).phase) hlocal
    rw [localAt_gcn, localAt_gcn] at hphase
    exact phase_next _ _ _ hphase
  have hplaces : ∀ q ∈ (cfg.alloc a).members, (places q).Returned ∨
      places q = .waiting ∧ complete cfg a places q = false ∨
      places q = .waitingAgain ∧ complete cfg a places q = false := by
    intro q hq
    exact returned_or_waits (hstays q hq)
  -- who waits in the first iteration waits for nobody
  have hnowait : ∀ q ∈ (cfg.alloc a).members, (places q).Returned ∨ places q = .waitingAgain ∧
      complete cfg a places q = false := by
    intro q hq
    rcases hplaces q hq with hreturned | ⟨hwaiting, hincomplete⟩ | hagain
    · exact .inl hreturned
    · have hcomplete : complete cfg a places q = true := by
        apply decide_eq_true
        intro r hr
        rw [hwaiting]
        rcases hplaces r hr with hreturned | ⟨hwait, -⟩ | ⟨hwait, -⟩
        · exact le_trans (by decide) (four_le_rank hreturned)
        · rw [hwait]
        · rw [hwait]
          decide
      rw [hcomplete] at hincomplete
      exact nomatch hincomplete
    · exact .inr hagain
  rcases hnowait p hp with hreturned | ⟨hagain, hincomplete⟩
  · exact hreturned
  · have hzero := hat.possible p hp
    rw [hagain] at hzero
    have hcomplete : complete cfg a places p = true := by
      apply decide_eq_true
      intro r hr
      rw [hagain]
      have hpossible := hat.possible r hr
      rcases hnowait r hr with hreturned | ⟨hwait, -⟩
      · apply five_le_rank hreturned
        -- after an empty first search nobody is done with it
        intro hdone
        rw [hdone] at hpossible
        exact hpossible hzero
      · rw [hwait]
    rw [hcomplete] at hincomplete
    exact nomatch hincomplete

theorem hasBit_taken {m : ContextMask} {x : Nat} (h : hasBit (taken cfg a w₀ p m) x = true) :
    hasBit (w₀ p).mask x = true := by
  by_cases hid : locateContextBit m = 0
  · rw [taken_of_zero hid] at h
    exact h
  · rw [taken, findAndAllocateContextId, if_pos hid] at h
    split at h
    · exact h
    · cases halloc : allocateContextBit (w₀ p).mask (locateContextBit m) with
      | none =>
        rw [halloc] at h
        exact h
      | some mask =>
        rw [halloc] at h
        have hx : hasBit mask x = true := h
        rw [hasBit_allocate halloc x] at hx
        exact (Bool.and_eq_true_iff.mp hx).1

theorem hasBit_maskAt {x : Nat} (h : hasBit (maskAt cfg a w₀ p place) x = true) :
    hasBit (w₀ p).mask x = true := by
  unfold maskAt at h
  split at h
  · exact hasBit_taken h
  · exact hasBit_taken h
  · exact hasBit_taken h
  · exact hasBit_taken h
  · exact h

theorem ready_of_returned (hready : Ready (w₀ p)) (h : place.Returned) :
    Ready (localAt cfg a w₀ p place) := by
  have hworld : hasBit (maskAt cfg a w₀ p place) 0 = false := by
    cases hbit : hasBit (maskAt cfg a w₀ p place) 0 with
    | false => rfl
    | true =>
      have hmask := hasBit_maskAt hbit
      rw [hready.world] at hmask
      exact nomatch hmask
  cases place with
  | done => exact ⟨rfl, rfl, rfl, hworld⟩
  | doneAgain => exact ⟨rfl, rfl, rfl, hworld⟩
  | failed => exact ⟨rfl, rfl, rfl, hworld⟩
  | _ => exact h.elim

/-- The allocation without contention, in one of the worlds it can reach. -/
structure Completes (cfg : Config) (a : AllocId) (w₀ w : World) : Prop where
  /- no assertion fails -/
  goes : ∀ o, Participant cfg a o → ∃ w', step cfg w o = .ok w'
  iterations : ∀ p ∈ (cfg.alloc a).members, ((w p).gcn a).iter < 2
  /- it stops only when all have returned, and they are ready for the next one -/
  returns : (∀ o, Participant cfg a o → step cfg w o = .ok w) → ∀ p ∈ (cfg.alloc a).members,
    (((w p).gcn a).phase = .done ∨ ((w p).gcn a).phase = .failed) ∧ Ready (w p)
  succeeds : Available cfg a w₀ → ∃ id ≠ 0, ∀ p ∈ (cfg.alloc a).members,
    ((w p).gcn a).phase ≠ .failed ∧ (((w p).gcn a).phase = .done → cfg.ignores p a = false →
      ((w p).gcn a).result = some id ∧ hasBit (w₀ p).mask id = true ∧ hasBit (w p).mask id = false)
  fails : ¬ Available cfg a w₀ → ∀ p ∈ (cfg.alloc a).members,
    ((w p).gcn a).phase ≠ .done ∧ (w p).mask = (w₀ p).mask

theorem found {m : ContextMask} (hign : cfg.ignores p a = false) (hid : locateContextBit m ≠ 0)
    (hsub : ∀ id, hasBit m id = true → hasBit (w₀ p).mask id = true) :
    got cfg a p (locateContextBit m) = some (locateContextBit m) ∧
      hasBit (w₀ p).mask (locateContextBit m) = true ∧
      hasBit (taken cfg a w₀ p m) (locateContextBit m) = false := by
  obtain ⟨mask, hfind, hbits⟩ := findAndAllocateContextId_spec hsub
  obtain ⟨rfl, -⟩ := Prod.mk.inj (Option.some.inj (hfind.symm.trans (findAndAllocate_taken hign hsub)))
  refine ⟨if_neg (by simp [hign, hid]), hsub _ (locateContextBit_spec hid).2.1, ?_⟩
  rw [hbits]
  simp [hid]

theorem At.completes (hquiet : Quiet cfg a w₀) (hblocking : (cfg.alloc a).blocking = true)
    (hat : At cfg a w₀ places w) : Completes cfg a w₀ w := by
  have hgcn : ∀ p ∈ (cfg.alloc a).members, (w p).gcn a = gcnAt cfg a w₀ p (places p) := by
    intro p hp
    rw [hat.state p hp, localAt_gcn]
  constructor
  · intro o ho
    exact ⟨_, step_at hquiet hblocking hat ho⟩
  · intro p hp
    rw [hgcn p hp]
    cases places p <;> simp
  · intro hstuck p hp
    have hreturned := hat.returned hquiet hblocking hstuck hp
    constructor
    · rw [hgcn p hp]
      exact phase_of_returned hreturned
    · rw [hat.state p hp]
      exact ready_of_returned (hquiet p hp).1 hreturned
  · intro havailable
    have hids := (available_iff hquiet).mpr havailable
    by_cases hzero : firstId cfg a w₀ = 0
    · have hid := hids.resolve_left (not_not.mpr hzero)
      refine ⟨secondId cfg a w₀, hid, fun p hp => ?_⟩
      have hpossible := hat.possible p hp
      rw [hgcn p hp, hat.state p hp]
      constructor
      · intro hfailed
        rw [phase_eq_failed hfailed] at hpossible
        exact hid hpossible.2
      · intro hdone hign
        have hfound := found hign hid fun id h => (hasBit_second.mp (hasBit_reduce.mp h p hp) hign).2
        rcases phase_eq_done hdone with hplace | hplace
        · rw [hplace] at hpossible
          exact absurd hzero hpossible
        · rw [hplace]
          exact hfound
    · refine ⟨firstId cfg a w₀, hzero, fun p hp => ?_⟩
      have hpossible := hat.possible p hp
      rw [hgcn p hp, hat.state p hp]
      constructor
      · intro hfailed
        rw [phase_eq_failed hfailed] at hpossible
        exact hzero hpossible.1
      · intro hdone hign
        have hfound := found hign hzero fun id h => (hasBit_first.mp (hasBit_reduce.mp h p hp) hign).2
        rcases phase_eq_done hdone with hplace | hplace
        · rw [hplace]
          exact hfound
        · rw [hplace] at hpossible
          exact absurd hpossible.1 hzero
  · intro hnone p hp
    have hids := not_or.mp (mt (available_iff hquiet).mp hnone)
    have hfirst : firstId cfg a w₀ = 0 := not_not.mp hids.1
    have hsecond : secondId cfg a w₀ = 0 := not_not.mp hids.2
    have hpossible := hat.possible p hp
    rw [hgcn p hp, hat.state p hp]
    constructor
    · intro hdone
      rcases phase_eq_done hdone with hplace | hplace
      · rw [hplace] at hpossible
        exact hpossible hfirst
      · rw [hplace] at hpossible
        exact hpossible.2 hsecond
    · show maskAt cfg a w₀ p (places p) = _
      unfold maskAt
      split
      · exact taken_of_zero hfirst
      · exact taken_of_zero hfirst
      · exact taken_of_zero hsecond
      · exact taken_of_zero hsecond
      · rfl

/-- Without contention every allocation ends after at most two iterations, with an id if one is free
everywhere and otherwise with an error for all and nothing changed. -/
theorem allocation_completes (cfg : Config) (a : AllocId) (w₀ : World)
    (hblocking : (cfg.alloc a).blocking = true) (hquiet : Quiet cfg a w₀) (n : Nat) (w : World)
    (hrun : Runs cfg a w₀ n w) :
    n ≤ 9 * (cfg.alloc a).members.length ∧ Completes cfg a w₀ w := by
  obtain ⟨places, hat, hn⟩ := hrun.at_places hquiet hblocking
  have hsum : ((cfg.alloc a).members.map fun p => (places p).rank).sum ≤
      ((cfg.alloc a).members.map fun p => (places p).rank).length * 9 := by
    apply List.sum_le_card_nsmul
    intro k hk
    obtain ⟨p, -, rfl⟩ := List.mem_map.mp hk
    cases places p <;> decide
  rw [List.length_map] at hsum
  exact ⟨by omega, hat.completes hquiet hblocking⟩

end Runs

def trio : Config where
  eagerNelem := 1
  alloc _ := { members := [0, 1, 2], blocking := true, ignoreId := (· = 2), contextId := 0, tag := 0 }

def fresh : World := World.init fun _ i => if i = 0 then 0xFFFFFFFC else BitVec.allOnes 32

theorem allocation_completes_trio :
    ((trio.alloc 0).blocking = true ∧ Quiet trio 0 fresh ∧
      Runs trio 0 fresh 1 (update fresh 0 (start trio 0 0 (fresh 0)))) ∧
      1 ≤ 9 * (trio.alloc 0).members.length ∧
      Completes trio 0 fresh (update fresh 0 (start trio 0 0 (fresh 0))) := by
  have hworld : hasBit (fun i => if i = 0 then 0xFFFFFFFC else BitVec.allOnes 32) 0 = false := by decide
  have hquiet : Quiet trio 0 fresh := fun p _ => ⟨⟨rfl, rfl, rfl, hworld⟩, rfl, rfl⟩
  have hrun : Runs trio 0 fresh 1 (update fresh 0 (start trio 0 0 (fresh 0))) := by
    apply Runs.act .start (o := ⟨0, 0, .start⟩)
    · exact ⟨List.mem_cons_self, rfl, trivial⟩
    · rfl
    · intro heq
      have hphase := congrArg (fun w : World => ((w 0).gcn 0).phase) heq
      exact nomatch hphase
  exact ⟨⟨rfl, hquiet, hrun⟩, allocation_completes trio 0 fresh rfl hquiet 1 _ hrun⟩

end FgMpi.ContextId.Completeness
