import FgMpi.ContextId.Agreement

namespace FgMpi.ContextId.Safety
open Machine.Checked Machine.Guard Machine.Runs
open ContextId.Mask ContextId.Allocation ContextId.Exclusion
open ContextId.Agreement

structure Safe (cfg : Config) (w : World) : Prop where
  /- whoever obtains an id in an allocation obtains the same -/
  agree : ∀ a p q i j, ((w p).gcn a).result = some i → ((w q).gcn a).result = some j → i = j
  /- when a member has obtained it, no other member's call ends without -/
  returned : ∀ a p q i, ((w p).gcn a).result = some i → cfg.ignores q a = false →
    ((w q).gcn a).phase = .done ∨ ((w q).gcn a).phase = .failed →
    ((w q).gcn a).result = some i
  /- the bit is set when it is taken, and then clear -/
  taken : ∀ p a w' i, step cfg w ⟨p, a, .take⟩ = .ok w' → ((w p).gcn a).result = none →
    ((w' p).gcn a).result = some i → hasBit (w p).mask i = true ∧ hasBit (w' p).mask i = false
  held : ∀ p a i, ((w p).gcn a).holds = some i → hasBit (w p).mask i = false
  once : ∀ p a b i, ((w p).gcn a).holds = some i → ((w p).gcn b).holds = some i → a = b

variable {cfg : Config} {w : World} {a : AllocId}

theorem results_agree (h : Lockstep cfg w) {p q : Proc}
    {i j : Nat} (hp : ((w p).gcn a).result = some i) (hq : ((w q).gcn a).result = some j) :
    i = j := by
  obtain ⟨⟨m, flag, hm, hi, hine⟩, -⟩ := (h.stage p a).result i hp
  obtain ⟨⟨m', flag', hm', hj, hjne⟩, -⟩ := (h.stage q a).result j hq
  rcases Nat.lt_trichotomy ((w p).gcn a).iter ((w q).gcn a).iter with hlt | heq | hgt
  · obtain ⟨m₀, hm₀, hz⟩ := (h.stage q a).passed _ hlt
    rw [hm] at hm₀
    cases hm₀
    exact absurd (hi.symm.trans hz) hine
  · rw [heq, hm'] at hm
    cases hm
    exact hi.symm.trans hj
  · obtain ⟨m₀, hm₀, hz⟩ := (h.stage p a).passed _ hgt
    rw [hm'] at hm₀
    cases hm₀
    exact absurd (hj.symm.trans hz) hjne

theorem result_returned (h : Lockstep cfg w)
    {p q : Proc} {i : Nat} (hp : ((w p).gcn a).result = some i) (hign : cfg.ignores q a = false)
    (hq : ((w q).gcn a).phase = .done ∨ ((w q).gcn a).phase = .failed) :
    ((w q).gcn a).result = some i := by
  rcases hq with hq | hq
  · obtain ⟨m, flag, hm, hne, hres⟩ := (h.stage q a).done hq
    have hj := hres hign
    rw [hj, results_agree h hp hj]
  · obtain ⟨m', hm', hz'⟩ := (h.stage q a).exhausted (Or.inr (Or.inr hq))
    obtain ⟨⟨m, flag, hm, hi, hine⟩, -⟩ := (h.stage p a).result i hp
    rcases Nat.lt_trichotomy ((w p).gcn a).iter ((w q).gcn a).iter with hlt | heq | hgt
    · obtain ⟨m₀, hm₀, hz⟩ := (h.stage q a).passed _ hlt
      rw [hm] at hm₀
      cases hm₀
      exact absurd (hi.symm.trans hz) hine
    · rw [heq, hm'] at hm
      cases hm
      exact absurd (hi.symm.trans hz') hine
    · -- the others would have seen the exhaustion, too
      obtain ⟨m₀, hm₀, -⟩ := (h.stage p a).passed _ hgt
      rw [hm'] at hm₀
      cases hm₀

theorem bit_taken {w' : World} (h : Sound cfg w) {p : Proc}
    {i : Nat} (hs : step cfg w ⟨p, a, .take⟩ = .ok w') (hnone : ((w p).gcn a).result = none)
    (hres : ((w' p).gcn a).result = some i) :
    hasBit (w p).mask i = true ∧ hasBit (w' p).mask i = false := by
  obtain ⟨l, hl, hw'⟩ := bind_eq_ok.mp hs
  cases hw'
  rw [Function.update_self] at hres ⊢
  change take cfg p a (allreduce cfg w a ((w p).gcn a).iter) (w p) = .ok l at hl
  by_cases hphase : ((w p).gcn a).phase = .waiting
  · have hmem : p ∈ (cfg.alloc a).members := (h p).2 a (by rw [hphase]; simp)
    cases hred : allreduce cfg w a ((w p).gcn a).iter with
    | none =>
      rw [hred] at hl
      simp only [take, hphase] at hl
      cases hl
      rw [hnone] at hres
      cases hres
    | some r =>
      obtain ⟨m, flag⟩ := r
      obtain ⟨c, hc, hbits, hflag⟩ := allreduce_le hred hmem
      obtain ⟨l', st, hl', -, htaken⟩ := take_proper (h p).1 hphase hc hbits hflag
      rw [hred, hl'] at hl
      cases hl
      rw [htaken.gcn, Function.update_self, htaken.result, hnone] at hres
      split at hres
      · cases hres
      · rename_i hcond
        cases hres
        rw [not_or] at hcond
        exact htaken.bit (by simpa using hcond.1) hcond.2
  · have hsame : take cfg p a (allreduce cfg w a ((w p).gcn a).iter) (w p) = .ok (w p) := by
      simp only [take]
      split
      · rename_i hw _
        exact absurd hw hphase
      · rfl
    rw [hsame] at hl
    cases hl
    rw [hnone] at hres
    cases hres

/-- Every run in which reductions are delivered, and in which an exhausted allocation does not
clear the flag of the base segment while another one owns it, goes through all assertions, and
the ids are right in the state it ends in. -/
theorem allocation_safe (cfg : Config) (mask : Proc → ContextMask) (ops : List Op)
    (hops : ∀ o ∈ ops, Delivered o.act) (hcond : Along (step cfg) (Orderly cfg) (World.init mask) ops) :
    ∃ w, run (step cfg) (World.init mask) ops = .ok w ∧ Safe cfg w := by
  obtain ⟨w, hw, hsound, hlock⟩ := run_of_along (I := fun w => Sound cfg w ∧ Lockstep cfg w)
    (P := fun w o => Delivered o.act ∧ Orderly cfg w o)
    (by
      rintro w o ⟨hsound, hlock⟩ ⟨hd, ho⟩
      obtain ⟨l, hl, hst, hsound'⟩ := step_sound hsound ho
      exact ⟨_, hl, hsound', step_lockstep hlock hst hd⟩)
    ⟨init_sound cfg mask, init_lockstep cfg mask⟩ ((Along.of_mem hops _).and hcond)
  refine ⟨w, hw, ?_, ?_, ?_, ?_, ?_⟩
  · intro a p q i j hp hq
    exact results_agree hlock hp hq
  · intro a p q i hp hign hq
    exact result_returned hlock hp hign hq
  · intro p a w' i hs hnone hres
    exact bit_taken hsound hs hnone hres
  · intro p a i hheld
    exact ((hsound p).1.held a i hheld).2
  · intro p a b i ha hb
    exact (hsound p).1.heldOnce a b i ha hb

def pairConfig : Config where
  eagerNelem := 1
  alloc
    | 0 => ⟨[0, 1], true, fun _ => false, 0, 0⟩
    | _ => ⟨[0], false, fun _ => false, 4, 0⟩

def pairMask (_ : Proc) : ContextMask := fun i => if i = 0 then 12 else 0

def pairOps : List Op :=
  [⟨0, 0, .start⟩, ⟨0, 0, .reserve⟩, ⟨1, 0, .start⟩, ⟨1, 0, .reserve⟩, ⟨0, 0, .take⟩,
    ⟨1, 0, .take⟩, ⟨0, 0, .settle⟩, ⟨0, 0, .free⟩, ⟨0, 1, .start⟩, ⟨0, 1, .reserve⟩,
    ⟨0, 1, .take⟩, ⟨0, 1, .settle⟩]

theorem allocation_safe_pair :
    ∃ w, run (step pairConfig) (World.init pairMask) pairOps = .ok w ∧ Safe pairConfig w ∧
      ((w 0).gcn 0).result = some 48 ∧ ((w 1).gcn 0).holds = some 48 ∧
      ((w 0).gcn 1).holds = some 48 := by
  obtain ⟨w, hw, hsafe⟩ :=
    allocation_safe pairConfig pairMask pairOps (by decide) (by decide +kernel)
  obtain ⟨w', hw', hobs⟩ := ok_of_observed
    (x := run (step pairConfig) (World.init pairMask) pairOps)
    (f := fun w => (((w 0).gcn 0).result, ((w 1).gcn 0).holds, ((w 0).gcn 1).holds))
    (a := (some 48, some 48, some 48)) (by decide +kernel)
  rw [hw] at hw'
  cases hw'
  exact ⟨w, hw, hsafe, congrArg (·.1) hobs, congrArg (·.2.1) hobs, congrArg (·.2.2) hobs⟩

def staleConfig : Config where
  eagerNelem := 1
  alloc
    | 0 => ⟨[0, 1], true, fun _ => false, 48, 0⟩
    | 1 => ⟨[0], true, fun _ => false, 32, 0⟩
    | _ => ⟨[0], true, fun _ => false, 16, 0⟩

def staleMask (p : Proc) : ContextMask := fun i => if p = 0 ∧ i = 1 then 1 else 0

def staleOps : List Op :=
  [⟨0, 0, .start⟩, ⟨1, 0, .start⟩, ⟨0, 0, .reserve⟩, ⟨1, 0, .reserve⟩, ⟨0, 0, .take⟩,
    ⟨1, 0, .take⟩, ⟨0, 0, .settle⟩, ⟨1, 0, .settle⟩, ⟨0, 0, .reserve⟩, ⟨1, 0, .reserve⟩,
    ⟨0, 1, .start⟩, ⟨0, 1, .reserve⟩, ⟨0, 1, .take⟩, ⟨0, 1, .settle⟩, ⟨0, 0, .take⟩,
    ⟨0, 1, .reserve⟩, ⟨0, 0, .settle⟩, ⟨0, 0, .release⟩]

def staleEnd : List Op :=
  [⟨0, 2, .start⟩, ⟨0, 2, .reserve⟩, ⟨0, 2, .take⟩, ⟨0, 2, .settle⟩, ⟨0, 2, .reserve⟩,
    ⟨0, 1, .take⟩, ⟨0, 2, .take⟩]

theorem stale_release_allocates_twice :
    (∀ o ∈ staleOps ++ staleEnd, Delivered o.act) ∧
      run (step staleConfig) (World.init staleMask) (staleOps ++ staleEnd) = .error .allocated :=
  ⟨by decide, error_of_faultOf (by decide +kernel)⟩

structure Released (w : World) : Prop where
  /- a call that returned an error is not in the list -/
  unlisted : ∀ p a, ((w p).gcn a).phase = .failed → a ∉ (w p).nextGcn
  /- the flags are set for those that wait for a reduction with a part of the mask, and only for
  them -/
  eager : ∀ p, (w p).eagerInUse = true ↔ ∃ a, OwnsEager ((w p).gcn a)
  base : ∀ p, (w p).maskInUse = true ↔ ∃ a, OwnsBase ((w p).gcn a)

theorem guarded_iff {flag : Bool} {own : AllocId → Prop} (h : Guarded flag own) :
    flag = true ↔ ∃ a, own a := by
  constructor
  · exact h.accounted
  · rintro ⟨a, ha⟩
    exact h.set a ha

theorem sound_released (h : Sound cfg w) : Released w where
  unlisted p a hfailed hmem := by
    obtain ⟨-, -, hphase⟩ := ((h p).1.listed a).mp hmem
    rw [hfailed] at hphase
    simp at hphase
  eager p := guarded_iff (h p).1.eager
  base p := guarded_iff (h p).1.base

/-- Whatever fails, as long as no reduction fails for the owner of the eager segment, no exhausted
allocation clears the flag of another one, and the schedule can be extended after an id was taken
from the base segment. -/
theorem errors_release (cfg : Config) (mask : Proc → ContextMask) (ops : List Op)
    (hcond : Along (step cfg) (Orderly cfg) (World.init mask) ops) :
    ∃ w, run (step cfg) (World.init mask) ops = .ok w ∧ Released w := by
  obtain ⟨w, hw, hsound⟩ := run_of_along (I := Sound cfg) (P := Orderly cfg)
    (by
      intro w o hsound ho
      obtain ⟨l, hl, -, hsound'⟩ := step_sound hsound ho
      exact ⟨_, hl, hsound'⟩)
    (init_sound cfg mask) hcond
  exact ⟨w, hw, sound_released hsound⟩

def failingOps : List Op :=
  [⟨0, 1, .start⟩, ⟨0, 1, .reserve⟩, ⟨0, 1, .take⟩, ⟨0, 1, .settle⟩, ⟨0, 1, .reserve⟩,
    ⟨0, 1, .allreduceFail⟩]

theorem errors_release_owner :
    ∃ w, run (step staleConfig) (World.init staleMask) failingOps = .ok w ∧ Released w ∧
      ((w 0).gcn 1).phase = .failed ∧ ((w 0).gcn 1).ownMask = true := by
  obtain ⟨w, hw, hreleased⟩ :=
    errors_release staleConfig staleMask failingOps (by decide +kernel)
  obtain ⟨w', hw', hobs⟩ := ok_of_observed
    (x := run (step staleConfig) (World.init staleMask) failingOps)
    (f := fun w => (((w 0).gcn 1).phase, ((w 0).gcn 1).ownMask))
    (a := (.failed, true)) (by decide +kernel)
  rw [hw] at hw'
  cases hw'
  exact ⟨w, hw, hreleased, congrArg (·.1) hobs, congrArg (·.2) hobs⟩

theorem stale_release_clears_flag :
    ∃ w, run (step staleConfig) (World.init staleMask) (staleOps ++ [⟨0, 0, .fail⟩]) = .ok w ∧
      ((w 0).gcn 0).phase = .failed ∧ ¬ Released w := by
  obtain ⟨w, hw, hobs⟩ := ok_of_observed
    (x := run (step staleConfig) (World.init staleMask) (staleOps ++ [⟨0, 0, .fail⟩]))
    (f := fun w => (((w 0).gcn 0).phase, (w 0).maskInUse, ((w 0).gcn 1).phase, ((w 0).gcn 1).ownMask))
    (a := (.failed, false, .waiting, true)) (by decide +kernel)
  have hclear : (w 0).maskInUse = false := congrArg (·.2.1) hobs
  have howns : OwnsBase ((w 0).gcn 1) := ⟨congrArg (·.2.2.1) hobs, congrArg (·.2.2.2) hobs⟩
  refine ⟨w, hw, congrArg (·.1) hobs, ?_⟩
  intro hreleased
  have hset := (hreleased.base 0).mpr ⟨1, howns⟩
  rw [hclear] at hset
  cases hset

end FgMpi.ContextId.Safety
