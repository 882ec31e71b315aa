import FgMpi.ContextId.Reductions

/-! The states of a process that runs one allocation only, and the step from each to the next. -/

namespace FgMpi.ContextId.Places
open Machine.Checked
open ContextId.Mask ContextId.Allocation ContextId.Reductions

/-- Where the call of a participant is; after the first iteration it is `again`. -/
inductive Place
  | idle
  | reserving
  | waiting
  | settling
  | done
  | reservingAgain
  | waitingAgain
  | settlingAgain
  | doneAgain
  | exhausted
  | failing
  | failed
deriving DecidableEq

def Place.rank : Place → Nat
  | .idle => 0
  | .reserving => 1
  | .waiting => 2
  | .settling => 3
  | .done => 4
  | .reservingAgain => 4
  | .waitingAgain => 5
  | .settlingAgain => 6
  | .doneAgain => 7
  | .exhausted => 7
  | .failing => 8
  | .failed => 9

def Place.Returned : Place → Prop
  | .done | .doneAgain | .failed => True
  | _ => False

section States
variable (cfg : Config) (a : AllocId) (w₀ : World) (p : Proc)

def Possible : Place → Prop
  | .idle | .reserving | .waiting | .settling => True
  | .done => firstId cfg a w₀ ≠ 0
  | .reservingAgain | .waitingAgain | .settlingAgain => firstId cfg a w₀ = 0
  | .doneAgain => firstId cfg a w₀ = 0 ∧ secondId cfg a w₀ ≠ 0
  | .exhausted | .failing | .failed => firstId cfg a w₀ = 0 ∧ secondId cfg a w₀ = 0

def got (id : Nat) : Option Nat := if cfg.ignores p a = true ∨ id = 0 then none else some id

@[simp] def gcnAt : Place → Gcn
  | .idle => {}
  | .reserving => { phase := .reserving }
  | .waiting =>
    { phase := .waiting, ownEagerMask := !cfg.ignores p a && decide (0 < cfg.eagerNelem) }
  | .settling =>
    { phase := .settling (firstId cfg a w₀) (reduce cfg a (first cfg a w₀)).2
      result := got cfg a p (firstId cfg a w₀)
      holds := got cfg a p (firstId cfg a w₀) }
  | .done =>
    { phase := .done
      firstIter := false
      result := got cfg a p (firstId cfg a w₀)
      holds := got cfg a p (firstId cfg a w₀) }
  | .reservingAgain => { phase := .reserving, iter := 1, firstIter := false }
  | .waitingAgain =>
    { phase := .waiting, iter := 1, firstIter := false, ownMask := !cfg.ignores p a }
  | .settlingAgain =>
    { phase := .settling (secondId cfg a w₀) (reduce cfg a (second cfg a w₀)).2
      iter := 1
      firstIter := false
      ownMask := !cfg.ignores p a
      result := got cfg a p (secondId cfg a w₀)
      holds := got cfg a p (secondId cfg a w₀) }
  | .doneAgain =>
    { phase := .done
      iter := 1
      firstIter := false
      ownMask := !cfg.ignores p a
      result := got cfg a p (secondId cfg a w₀)
      holds := got cfg a p (secondId cfg a w₀) }
  | .exhausted =>
    { phase := .exhausted, iter := 1, firstIter := false, ownMask := !cfg.ignores p a }
  | .failing => { phase := .failing, iter := 1, firstIter := false, ownMask := !cfg.ignores p a }
  | .failed => { phase := .failed, iter := 1, firstIter := false, ownMask := !cfg.ignores p a }

def taken (m : ContextMask) : ContextMask :=
  if cfg.ignores p a then (w₀ p).mask
  else ((findAndAllocateContextId (w₀ p).mask m).map Prod.fst).getD (w₀ p).mask

@[simp] def maskAt : Place → ContextMask
  | .settling | .done => taken cfg a w₀ p (reduce cfg a (first cfg a w₀)).1
  | .settlingAgain | .doneAgain => taken cfg a w₀ p (reduce cfg a (second cfg a w₀)).1
  | _ => (w₀ p).mask

@[simp] def eagerInUseAt : Place → Bool
  | .waiting => !cfg.ignores p a && decide (0 < cfg.eagerNelem)
  | _ => false

@[simp] def maskInUseAt : Place → Bool
  | .waitingAgain => !cfg.ignores p a
  | _ => false

@[simp] def nextGcnAt : Place → List AllocId
  | .reservingAgain | .waitingAgain | .exhausted | .failing => if cfg.ignores p a then [] else [a]
  | .settlingAgain => if cfg.ignores p a = true ∨ secondId cfg a w₀ ≠ 0 then [] else [a]
  | _ => []

@[simp] def sentAt : Place → Nat → Option Contribution
  | .idle | .reserving => fun _ => none
  | .waiting | .settling | .done | .reservingAgain =>
    Function.update (fun _ => none) 0 (some (first cfg a w₀ p))
  | _ => Function.update (Function.update (fun _ => none) 0 (some (first cfg a w₀ p))) 1
    (some (second cfg a w₀ p))

def localAt (place : Place) : Local where
  mask := maskAt cfg a w₀ p place
  eagerInUse := eagerInUseAt cfg a p place
  maskInUse := maskInUseAt cfg a p place
  nextGcn := nextGcnAt cfg a w₀ p place
  gcn := Function.update (w₀ p).gcn a (gcnAt cfg a w₀ p place)
  sent := Function.update (w₀ p).sent a (sentAt cfg a w₀ p place)

variable {cfg a w₀ p} {place : Place} {reduced : Option Contribution}

@[simp] theorem localAt_gcn : (localAt cfg a w₀ p place).gcn a = gcnAt cfg a w₀ p place :=
  Function.update_self ..

@[simp] theorem localAt_sent : (localAt cfg a w₀ p place).sent a = sentAt cfg a w₀ p place :=
  Function.update_self ..

theorem localAt_eq {l : Local} (hmask : l.mask = maskAt cfg a w₀ p place)
    (heager : l.eagerInUse = eagerInUseAt cfg a p place) (hinUse : l.maskInUse = maskInUseAt cfg a p place)
    (hlist : l.nextGcn = nextGcnAt cfg a w₀ p place)
    (hgcn : l.gcn = Function.update (w₀ p).gcn a (gcnAt cfg a w₀ p place))
    (hsent : l.sent = Function.update (w₀ p).sent a (sentAt cfg a w₀ p place)) :
    l = localAt cfg a w₀ p place := by
  obtain ⟨mask, eager, inUse, list, gcn, sent⟩ := l
  rw [localAt]
  exact Local.mk.injEq .. ▸ ⟨hmask, heager, hinUse, hlist, hgcn, hsent⟩

theorem start_idle (hp : p ∈ (cfg.alloc a).members) :
    start cfg p a (localAt cfg a w₀ p .idle) = localAt cfg a w₀ p .reserving := by
  rw [start, localAt_gcn, if_pos ⟨rfl, hp⟩]
  apply localAt_eq rfl rfl rfl rfl
  · exact Function.update_idem ..
  · rfl

theorem reserve_reserving : reserve cfg p a (localAt cfg a w₀ p .reserving) =
    .ok (localAt cfg a w₀ p .waiting) := by
  cases hign : cfg.ignores p a with
  | true => simp [reserve, localAt, first, hign, Local.set]
  | false =>
    by_cases heager : 0 < cfg.eagerNelem
    · simp [reserve, localAt, first, hign, heager, Local.set]
    · simp [reserve, localAt, first, hign, Nat.eq_zero_of_not_pos heager, Local.set]

theorem reserve_reservingAgain : reserve cfg p a (localAt cfg a w₀ p .reservingAgain) =
    .ok (localAt cfg a w₀ p .waitingAgain) := by
  cases hign : cfg.ignores p a with
  | true => simp [reserve, localAt, second, hign, Local.set]
  | false => simp [reserve, localAt, second, hign, Local.set, require_bind]

theorem findAndAllocate_taken {m : ContextMask} (hign : cfg.ignores p a = false)
    (hsub : ∀ id, hasBit m id = true → hasBit (w₀ p).mask id = true) :
    findAndAllocateContextId (w₀ p).mask m = some (taken cfg a w₀ p m, locateContextBit m) := by
  obtain ⟨mask, hmask, -⟩ := findAndAllocateContextId_spec hsub
  rw [taken, hign, if_neg Bool.false_ne_true, hmask]
  rfl

theorem taken_of_zero {m : ContextMask} (h : locateContextBit m = 0) : taken cfg a w₀ p m = (w₀ p).mask := by
  rw [taken, findAndAllocateContextId, if_neg (not_not.mpr h)]
  exact ite_self _

theorem got_zero : got cfg a p 0 = none := if_pos (.inr rfl)

theorem obtain_eq {st : Gcn} {id : Nat} (hign : cfg.ignores p a = false) (hresult : st.result = none)
    (hholds : st.holds = none) : st.obtain id = { st with result := got cfg a p id, holds := got cfg a p id } := by
  unfold Gcn.obtain
  by_cases hid : id = 0
  · rw [if_pos hid, hid, got_zero, ← hresult]
    cases st
    exact congrArg _ (hholds.trans hresult.symm)
  · rw [if_neg hid, got, if_neg (by simp [hign, hid])]

theorem take_waiting (hp : p ∈ (cfg.alloc a).members) (hready : Ready (w₀ p)) :
    take cfg p a (some (reduce cfg a (first cfg a w₀))) (localAt cfg a w₀ p .waiting) =
      .ok (localAt cfg a w₀ p .settling) := by
  cases hign : cfg.ignores p a with
  | true => simp [take, localAt, hign, Local.set, taken, got, firstId]
  | false =>
    by_cases heager : 0 < cfg.eagerNelem
    · have hsub : ∀ id, hasBit (reduce cfg a (first cfg a w₀)).1 id = true → hasBit (w₀ p).mask id = true :=
        fun id hid => (hasBit_first.mp (hasBit_reduce.mp hid p hp) hign).2
      have hfind := findAndAllocate_taken hign hsub
      simp [take, localAt, hign, heager, Local.set, hfind, obtain_eq hign, firstId]
    · have hzero := firstId_eq_zero hp hready hign heager
      have hmask : taken cfg a w₀ p (reduce cfg a (first cfg a w₀)).1 = (w₀ p).mask := taken_of_zero hzero
      simp [take, localAt, hign, heager, Local.set, hzero, hmask, got_zero]

theorem take_waitingAgain (hp : p ∈ (cfg.alloc a).members) :
    take cfg p a (some (reduce cfg a (second cfg a w₀))) (localAt cfg a w₀ p .waitingAgain) =
      .ok (localAt cfg a w₀ p .settlingAgain) := by
  cases hign : cfg.ignores p a with
  | true => simp [take, localAt, hign, Local.set, taken, got, secondId]
  | false =>
    have hsub : ∀ id, hasBit (reduce cfg a (second cfg a w₀)).1 id = true → hasBit (w₀ p).mask id = true :=
      fun id hid => (hasBit_second.mp (hasBit_reduce.mp hid p hp) hign).2
    have hfind := findAndAllocate_taken hign hsub
    by_cases hzero : secondId cfg a w₀ = 0
    · have hzero' : locateContextBit (reduce cfg a (second cfg a w₀)).1 = 0 := hzero
      simp [take, localAt, hign, Local.set, hfind, obtain_eq hign, hzero, hzero', unlistIf, bind, Except.bind]
    · have hpos : 0 < locateContextBit (reduce cfg a (second cfg a w₀)).1 := Nat.pos_of_ne_zero hzero
      have hid : secondId cfg a w₀ = locateContextBit (reduce cfg a (second cfg a w₀)).1 := rfl
      simp [take, localAt, hign, Local.set, hfind, obtain_eq hign, hid, hpos, Nat.ne_of_gt hpos, unlistIf,
        unlist, bind, Except.bind]

theorem settle_settling (hblocking : (cfg.alloc a).blocking = true) :
    settle cfg p a (localAt cfg a w₀ p .settling) =
      localAt cfg a w₀ p (if firstId cfg a w₀ = 0 then .reservingAgain else .done) := by
  by_cases hzero : firstId cfg a w₀ = 0
  · have hflag : (reduce cfg a (first cfg a w₀)).2 = false := by
      cases hflag : (reduce cfg a (first cfg a w₀)).2 with
      | false => rfl
      | true => exact absurd hzero (firstId_of_flag hflag)
    have hmask : taken cfg a w₀ p (reduce cfg a (first cfg a w₀)).1 = (w₀ p).mask := taken_of_zero hzero
    cases hign : cfg.ignores p a with
    | true => simp [settle, enlist, Gcn.pastFirst, localAt, Local.set, hblocking, hzero, hflag, hign, hmask, got_zero]
    | false =>
      simp [settle, enlist, Gcn.pastFirst, localAt, Local.set, hblocking, hzero, hflag, hign, hmask, got_zero,
        addGcnToList]
  · simp [settle, enlist, Gcn.pastFirst, localAt, Local.set, hblocking, hzero]

theorem settle_settlingAgain (hblocking : (cfg.alloc a).blocking = true) :
    settle cfg p a (localAt cfg a w₀ p .settlingAgain) =
      localAt cfg a w₀ p (if secondId cfg a w₀ = 0 then .exhausted else .doneAgain) := by
  by_cases hzero : secondId cfg a w₀ = 0
  · have hmask : taken cfg a w₀ p (reduce cfg a (second cfg a w₀)).1 = (w₀ p).mask := taken_of_zero hzero
    simp [settle, localAt, Local.set, hblocking, hzero, second_flag, hmask, got_zero]
  · simp [settle, enlist, Gcn.pastFirst, localAt, Local.set, hblocking, hzero]

theorem release_exhausted : release a (localAt cfg a w₀ p .exhausted) = localAt cfg a w₀ p .failing := by
  simp [release, localAt, Local.set]

theorem fail_failing (hblocking : (cfg.alloc a).blocking = true) :
    fail cfg p a (localAt cfg a w₀ p .failing) = .ok (localAt cfg a w₀ p .failed) := by
  cases hign : cfg.ignores p a with
  | true => simp [fail, fnFail, localAt, Local.set, hign, hblocking, unlistIf, bind, Except.bind]
  | false => simp [fail, fnFail, localAt, Local.set, hign, hblocking, unlistIf, unlist, bind, Except.bind]

def nextPlace (cfg : Config) (a : AllocId) (w₀ : World) (complete : Bool) : Place → Act → Place
  | .idle, .start => .reserving
  | .reserving, .reserve => .waiting
  | .waiting, .take => if complete then .settling else .waiting
  | .settling, .settle => if firstId cfg a w₀ = 0 then .reservingAgain else .done
  | .reservingAgain, .reserve => .waitingAgain
  | .waitingAgain, .take => if complete then .settlingAgain else .waitingAgain
  | .settlingAgain, .settle => if secondId cfg a w₀ = 0 then .exhausted else .doneAgain
  | .exhausted, .release => .failing
  | .failing, .fail => .failed
  | place, _ => place

def CallAct : Act → Prop
  | .start | .reserve | .take | .settle | .release | .fail => True
  | _ => False

theorem localStep_at (hp : p ∈ (cfg.alloc a).members) (hready : Ready (w₀ p))
    (hblocking : (cfg.alloc a).blocking = true) {act : Act} (hact : CallAct act) {complete : Bool}
    (hfirst : place = .waiting →
      reduced = if complete then some (reduce cfg a (first cfg a w₀)) else none)
    (hsecond : place = .waitingAgain →
      reduced = if complete then some (reduce cfg a (second cfg a w₀)) else none) :
    localStep cfg p a reduced (localAt cfg a w₀ p place) act =
      .ok (localAt cfg a w₀ p (nextPlace cfg a w₀ complete place act)) := by
  cases act with
  | start =>
    cases place with
    | idle => exact congrArg _ (start_idle hp)
    | _ => simp [localStep, start, nextPlace]
  | reserve =>
    cases place with
    | reserving => exact reserve_reserving
    | reservingAgain => exact reserve_reservingAgain
    | _ => simp [localStep, reserve, nextPlace]
  | take =>
    cases place with
    | waiting =>
      rw [hfirst rfl]
      cases complete with
      | true => exact take_waiting hp hready
      | false => simp [localStep, take, nextPlace]
    | waitingAgain =>
      rw [hsecond rfl]
      cases complete with
      | true => exact take_waitingAgain hp
      | false => simp [localStep, take, nextPlace]
    | _ => simp [localStep, take, nextPlace]
  | settle =>
    cases place with
    | settling => exact congrArg _ (settle_settling hblocking)
    | settlingAgain => exact congrArg _ (settle_settlingAgain hblocking)
    | _ => simp [localStep, settle, nextPlace]
  | release =>
    cases place with
    | exhausted => exact congrArg _ release_exhausted
    | _ => simp [localStep, release, nextPlace]
  | fail =>
    cases place with
    | failing => exact fail_failing hblocking
    | _ => simp [localStep, fail, nextPlace]
  | _ => exact hact.elim

theorem possible_next (h : Possible cfg a w₀ place) (complete : Bool) (act : Act) :
    Possible cfg a w₀ (nextPlace cfg a w₀ complete place act) := by
  unfold nextPlace
  split
  · trivial
  · trivial
  · split <;> trivial
  · split
    · assumption
    · assumption
  · exact h
  · split <;> exact h
  · split
    · exact ⟨h, by assumption⟩
    · exact ⟨h, by assumption⟩
  · exact h
  · exact h
  · exact h

theorem rank_next (cfg : Config) (a : AllocId) (w₀ : World) (complete : Bool) (place : Place) (act : Act) :
    nextPlace cfg a w₀ complete place act = place ∨
      place.rank < (nextPlace cfg a w₀ complete place act).rank := by
  unfold nextPlace
  split <;> (try split) <;> simp [Place.rank]

end States

end FgMpi.ContextId.Places
