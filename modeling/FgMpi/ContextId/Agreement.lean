import FgMpi.ContextId.Exclusion

/-! All members take the same result out of the same reduction. -/

namespace FgMpi.ContextId.Agreement
open Machine.Checked
open ContextId.Mask ContextId.Allocation ContextId.Exclusion
open Function (update update_eq_self update_idem update_of_ne update_self)

theorem getLsbD_foldr_and {vs : List (BitVec 32)} {i : Nat}
    (h : (vs.foldr (· &&& ·) (BitVec.allOnes 32)).getLsbD i = true) {v : BitVec 32} (hv : v ∈ vs) :
    v.getLsbD i = true := by
  induction vs with
  | nil => cases hv
  | cons u us ih =>
    rw [List.foldr_cons, BitVec.getLsbD_and, Bool.and_eq_true] at h
    rcases List.mem_cons.mp hv with rfl | hv
    · exact h.1
    · exact ih h.2 hv

variable {cfg : Config} {w : World} {a : AllocId}

theorem allreduce_le {k : Nat} {m : ContextMask}
    {flag : Bool} (h : allreduce cfg w a k = some (m, flag)) {q : Proc} (hq : q ∈ (cfg.alloc a).members) :
    ∃ c, (w q).sent a k = some c ∧ (∀ id, hasBit m id = true → hasBit c.1 id = true) ∧
      (flag = true → c.2 = true) := by
  unfold allreduce at h
  split at h
  · rename_i hall
    obtain ⟨c, hc⟩ := Option.isSome_iff_exists.mp (hall q hq)
    cases h
    refine ⟨c, hc, ?_, ?_⟩
    · intro id hid
      have hmem : c.1 (prefixField id / 32) ∈ (cfg.alloc a).members.map (fun q =>
          (((w q).sent a k).getD (fun _ => 0, false)).1 (prefixField id / 32)) := by
        rw [List.mem_map]
        exact ⟨q, hq, by rw [hc]; rfl⟩
      exact getLsbD_foldr_and hid hmem
    · intro hf
      have hqf := List.all_eq_true.mp hf q hq
      rw [hc] at hqf
      exact hqf
  · cases h

theorem allreduce_mono {w' : World} {k : Nat} {r : Contribution}
    (hkeep : ∀ q c, (w q).sent a k = some c → (w' q).sent a k = some c)
    (h : allreduce cfg w a k = some r) : allreduce cfg w' a k = some r := by
  unfold allreduce at h ⊢
  split at h
  · rename_i hall
    have hsame : ∀ q ∈ (cfg.alloc a).members, (w' q).sent a k = (w q).sent a k := by
      intro q hq
      obtain ⟨c, hc⟩ := Option.isSome_iff_exists.mp (hall q hq)
      rw [hkeep q c hc, hc]
    have hall' : ∀ q ∈ (cfg.alloc a).members, ((w' q).sent a k).isSome = true := by
      intro q hq
      rw [hsame q hq]
      exact hall q hq
    have hmap : ∀ i, (cfg.alloc a).members.map (fun q =>
        (((w' q).sent a k).getD (fun _ => 0, false)).1 i) = (cfg.alloc a).members.map (fun q =>
          (((w q).sent a k).getD (fun _ => 0, false)).1 i) := by
      intro i
      refine List.map_congr_left ?_
      intro q hq
      rw [hsame q hq]
    have hflag : (cfg.alloc a).members.all (fun q =>
        (((w' q).sent a k).getD (fun _ => 0, false)).2) = (cfg.alloc a).members.all (fun q =>
          (((w q).sent a k).getD (fun _ => 0, false)).2) := by
      rw [Bool.eq_iff_iff, List.all_eq_true, List.all_eq_true]
      constructor
      · intro hq q hmem
        rw [← hsame q hmem]
        exact hq q hmem
      · intro hq q hmem
        rw [hsame q hmem]
        exact hq q hmem
    rw [if_pos hall']
    cases h
    simp only [hmap, hflag]
  · cases h

structure Stage (reduced : Nat → Option Contribution) (ign : Bool) (st : Gcn) : Prop where
  passed : ∀ k < st.iter, ∃ m, reduced k = some (m, false) ∧ locateContextBit m = 0
  settling : ∀ id flag, st.phase = .settling id flag →
    (∃ m, reduced st.iter = some (m, flag) ∧ locateContextBit m = id) ∧
      (ign = false → id ≠ 0 → st.result = some id)
  exhausted : st.phase = .exhausted ∨ st.phase = .failing ∨ st.phase = .failed →
    ∃ m, reduced st.iter = some (m, true) ∧ locateContextBit m = 0
  done : st.phase = .done → ∃ m flag, reduced st.iter = some (m, flag) ∧
    locateContextBit m ≠ 0 ∧ (ign = false → st.result = some (locateContextBit m))
  result : ∀ id, st.result = some id →
    (∃ m flag, reduced st.iter = some (m, flag) ∧ locateContextBit m = id ∧ id ≠ 0) ∧
      (st.phase = .done ∨ ∃ flag, st.phase = .settling id flag)

theorem Stage.mono {reduced reduced' : Nat → Option Contribution} {ign : Bool} {st : Gcn}
    (h : Stage reduced ign st) (hle : ∀ k r, reduced k = some r → reduced' k = some r) :
    Stage reduced' ign st where
  passed k hk := by
    obtain ⟨m, hm, hz⟩ := h.passed k hk
    exact ⟨m, hle _ _ hm, hz⟩
  settling id flag hs := by
    obtain ⟨⟨m, hm, hid⟩, hres⟩ := h.settling id flag hs
    exact ⟨⟨m, hle _ _ hm, hid⟩, hres⟩
  exhausted hx := by
    obtain ⟨m, hm, hz⟩ := h.exhausted hx
    exact ⟨m, hle _ _ hm, hz⟩
  done hd := by
    obtain ⟨m, flag, hm, hne, hres⟩ := h.done hd
    exact ⟨m, flag, hle _ _ hm, hne, hres⟩
  result id hid := by
    obtain ⟨⟨m, flag, hm, hloc⟩, hphase⟩ := h.result id hid
    exact ⟨⟨m, flag, hle _ _ hm, hloc⟩, hphase⟩

theorem Stage.no_result {reduced : Nat → Option Contribution} {ign : Bool} {st : Gcn}
    (h : Stage reduced ign st) (hdone : st.phase ≠ .done)
    (hsettling : ∀ id flag, st.phase = .settling id flag → id = 0) : st.result = none := by
  cases hr : st.result with
  | none => rfl
  | some id =>
    obtain ⟨⟨_, _, _, _, hne⟩, hd | ⟨flag, hs⟩⟩ := h.result id hr
    · exact absurd hd hdone
    · exact absurd (hsettling id flag hs) hne

structure Unsent (sent : Nat → Option Contribution) (st : Gcn) : Prop where
  later : ∀ k, st.iter < k → sent k = none
  now : st.phase = .idle ∨ st.phase = .reserving → sent st.iter = none

structure Lockstep (cfg : Config) (w : World) : Prop where
  unsent : ∀ p a, Unsent ((w p).sent a) ((w p).gcn a)
  stage : ∀ p a, Stage (allreduce cfg w a) (cfg.ignores p a) ((w p).gcn a)

theorem init_lockstep (cfg : Config) (mask : Proc → ContextMask) : Lockstep cfg (World.init mask) where
  unsent p a := ⟨fun _ _ => rfl, fun _ => rfl⟩
  stage p a := by constructor <;> simp [World.init]

def Members (cfg : Config) (p : Proc) (l : Local) : Prop :=
  ∀ a, (l.gcn a).phase ≠ .idle → p ∈ (cfg.alloc a).members

/-- What the error paths need: the flag of the base segment is cleared, by a call that does not
own it any more, only when no pending allocation of the process owns it; a reduction does not
fail for the owner of the eager segment; the schedule can be extended after an id was taken from
the base segment. -/
def Orderly (cfg : Config) (w : World) (o : Op) : Prop :=
  let l := w o.proc
  let st := l.gcn o.alloc
  match o.act with
  | .release => st.phase = .exhausted → st.ownMask = true → ∀ b ∈ l.nextGcn, ¬ OwnsBase (l.gcn b)
  | .fail => st.phase = .failing → (cfg.alloc o.alloc).blocking = true → st.ownMask = true →
    ∀ b ∈ l.nextGcn, ¬ OwnsBase (l.gcn b)
  | .allreduceFail => st.phase = .waiting → (cfg.alloc o.alloc).blocking = true → st.ownEagerMask = false
  | .schedFail =>
    match st.phase with
    | .settling id _ => (cfg.alloc o.alloc).blocking = false → id = 0 ∨ st.firstIter = true
    | _ => True
  | _ => True

instance (cfg : Config) (w : World) (o : Op) : Decidable (Orderly cfg w o) := by
  unfold Orderly
  obtain ⟨p, a, act⟩ := o
  cases act with
  | schedFail =>
    simp only
    cases ((w p).gcn a).phase <;> infer_instance
  | _ => infer_instance

inductive Advance (cfg : Config) (p : Proc) (a : AllocId) (reduced : Option Contribution)
    (st : Gcn) (sent : Nat → Option Contribution) : Gcn → (Nat → Option Contribution) → Prop
  | same {st' : Gcn} (hphase : st'.phase = st.phase) (hiter : st'.iter = st.iter)
      (hresult : st'.result = st.result) : Advance cfg p a reduced st sent st' sent
  | started {st' : Gcn} (hold : st.phase = .idle) (hphase : st'.phase = .reserving)
      (hiter : st'.iter = st.iter) (hresult : st'.result = st.result) :
      Advance cfg p a reduced st sent st' sent
  | reserved {st' : Gcn} {c : Contribution} (hold : st.phase = .reserving)
      (hphase : st'.phase = .waiting) (hiter : st'.iter = st.iter)
      (hresult : st'.result = st.result) :
      Advance cfg p a reduced st sent st' (update sent st.iter (some c))
  | taken {st' : Gcn} {m : ContextMask} {flag : Bool} (hold : st.phase = .waiting)
      (hred : reduced = some (m, flag))
      (hphase : st'.phase = .settling (locateContextBit m) flag) (hiter : st'.iter = st.iter)
      (hresult : st'.result = if cfg.ignores p a = true ∨ locateContextBit m = 0 then st.result
        else some (locateContextBit m)) : Advance cfg p a reduced st sent st' sent
  | settled {st' : Gcn} {id : Nat} {flag : Bool} (hold : st.phase = .settling id flag)
      (hst : Settled id flag st st') : Advance cfg p a reduced st sent st' sent
  | gaveUp {st' : Gcn} (hold : st.phase = .exhausted ∨ st.phase = .failing)
      (hphase : st'.phase = .failing ∨ st'.phase = .failed) (hiter : st'.iter = st.iter)
      (hresult : st'.result = st.result) : Advance cfg p a reduced st sent st' sent

def Delivered (act : Act) : Prop := act ≠ .allreduceFail ∧ act ≠ .schedFail

instance (act : Act) : Decidable (Delivered act) := inferInstanceAs (Decidable (_ ∧ _))

theorem reserve_effect {p : Proc} {l l' : Local} (h : reserve cfg p a l = .ok l') :
    l' = l ∨ (l.gcn a).phase = .reserving ∧ ∃ st c, l'.gcn = update l.gcn a st ∧
      l'.sent = update l.sent a (update (l.sent a) (l.gcn a).iter (some c)) ∧
      st.phase = .waiting ∧ st.iter = (l.gcn a).iter ∧ st.result = (l.gcn a).result := by
  unfold reserve at h
  simp only at h
  split at h
  · cases h
    exact Or.inl rfl
  rename_i hphase
  right
  refine ⟨not_not.mp hphase, ?_⟩
  split at h
  · cases h
    exact ⟨_, _, rfl, rfl, rfl, rfl, rfl⟩
  split at h
  · split at h
    · cases h
      exact ⟨_, _, rfl, rfl, rfl, rfl, rfl⟩
    · cases h
      exact ⟨_, _, rfl, rfl, rfl, rfl, rfl⟩
  · obtain ⟨_, h⟩ := require_bind_eq_ok.mp h
    split at h
    · cases h
      exact ⟨_, _, rfl, rfl, rfl, rfl, rfl⟩
    · cases h
      exact ⟨_, _, rfl, rfl, rfl, rfl, rfl⟩

theorem no_owner_of_list {p : Proc} {l : Local} (h : Proper cfg p l)
    (hlist : ∀ b ∈ l.nextGcn, ¬ OwnsBase (l.gcn b)) (b : AllocId) : ¬ OwnsBase (l.gcn b) := by
  intro ho
  refine hlist b ((h.listed b).mpr ⟨?_, (h.gcnOk b).baseLater ho.2, Or.inr (Or.inl ho.1)⟩) ho
  cases hi : cfg.ignores p b with
  | false => rfl
  | true =>
    have hno := ((h.gcnOk b).ignoring hi).1
    rw [ho.2] at hno
    cases hno

section LocalStep
variable {cfg : Config} {w : World} {o : Op}

structure Stepped (cfg : Config) (w : World) (o : Op) (l : Local) : Prop where
  proper : Proper cfg o.proc l
  members : Members cfg o.proc l
  advance : ∃ st sent, l.gcn = update (w o.proc).gcn o.alloc st ∧
    l.sent = update (w o.proc).sent o.alloc sent ∧
    (Delivered o.act → Advance cfg o.proc o.alloc
      (allreduce cfg w o.alloc ((w o.proc).gcn o.alloc).iter) ((w o.proc).gcn o.alloc)
      ((w o.proc).sent o.alloc) st sent)

theorem members_update {p : Proc} {l l' : Local} {a : AllocId} {st : Gcn} (h : Members cfg p l)
    (hgcn : l'.gcn = update l.gcn a st)
    (hst : st.phase ≠ .idle → p ∈ (cfg.alloc a).members) : Members cfg p l' := by
  intro b hb
  rw [hgcn] at hb
  by_cases hba : b = a
  · rw [hba, update_self] at hb
    rw [hba]
    exact hst hb
  · rw [update_of_ne hba] at hb
    exact h b hb

theorem Stepped.of_update (hm : Members cfg o.proc (w o.proc)) {l : Local} {st : Gcn}
    {sent : Nat → Option Contribution} (hproper : Proper cfg o.proc l)
    (hgcn : l.gcn = update (w o.proc).gcn o.alloc st)
    (hsent : l.sent = update (w o.proc).sent o.alloc sent)
    (hidle : st.phase ≠ .idle → o.proc ∈ (cfg.alloc o.alloc).members)
    (hadv : Delivered o.act → Advance cfg o.proc o.alloc
      (allreduce cfg w o.alloc ((w o.proc).gcn o.alloc).iter) ((w o.proc).gcn o.alloc)
      ((w o.proc).sent o.alloc) st sent) : Stepped cfg w o l :=
  ⟨hproper, members_update hm hgcn hidle, st, sent, hgcn, hsent, hadv⟩

theorem Stepped.unchanged (h : Proper cfg o.proc (w o.proc)) (hm : Members cfg o.proc (w o.proc)) :
    Stepped cfg w o (w o.proc) :=
  Stepped.of_update hm h (update_eq_self _ _).symm (update_eq_self _ _).symm
    (hm o.alloc) (fun _ => .same rfl rfl rfl)

section Actions
variable {p : Proc} {a : AllocId} (h : Proper cfg p (w p)) (hm : Members cfg p (w p))

def Steps (cfg : Config) (w : World) (p : Proc) (a : AllocId) (act : Act) : Prop :=
  ∃ l, localStep cfg p a (allreduce cfg w a ((w p).gcn a).iter) (w p) act = .ok l ∧ Stepped cfg w ⟨p, a, act⟩ l

theorem same_sent {l : Local} {sent : AllocId → Nat → Option Contribution} (hs : sent = l.sent) :
    sent = update l.sent a (l.sent a) := by
  rw [hs, update_eq_self]

include h hm

theorem start_stepped : Steps cfg w p a .start := by
  refine ⟨_, rfl, ?_⟩
  have hproper := start_proper (a := a) h
  unfold start at hproper ⊢
  split at hproper
  · rename_i hidle
    rw [if_pos hidle]
    exact Stepped.of_update hm hproper rfl (same_sent rfl) (fun _ => hidle.2)
      (fun _ => .started hidle.1 rfl rfl rfl)
  · rename_i hidle
    rw [if_neg hidle]
    exact Stepped.unchanged h hm

theorem reserve_stepped : Steps cfg w p a .reserve := by
  obtain ⟨l, hl, hproper⟩ := reserve_proper (a := a) h
  refine ⟨l, hl, ?_⟩
  rcases reserve_effect hl with rfl | ⟨hphase, st, c, hgcn, hsent, hwait, hiter, hres⟩
  · exact Stepped.unchanged h hm
  · exact Stepped.of_update hm hproper hgcn hsent (fun _ => hm a (by rw [hphase]; simp))
      (fun _ => .reserved hphase hwait hiter hres)

theorem take_stepped : Steps cfg w p a .take := by
  unfold Steps
  by_cases hphase : ((w p).gcn a).phase = .waiting
  · have hmem : p ∈ (cfg.alloc a).members := hm a (by rw [hphase]; simp)
    cases hred : allreduce cfg w a ((w p).gcn a).iter with
    | none =>
      refine ⟨w p, ?_, Stepped.unchanged h hm⟩
      simp [localStep, take, hphase]
    | some r =>
      obtain ⟨m, flag⟩ := r
      obtain ⟨c, hc, hbits, hflag⟩ := allreduce_le hred hmem
      obtain ⟨l, st, hl, hproper, htaken⟩ := take_proper h hphase hc hbits hflag
      refine ⟨l, ?_, ?_⟩
      · exact hl
      · exact Stepped.of_update hm hproper htaken.gcn (same_sent htaken.sent) (fun _ => hmem)
          (fun _ => .taken hphase hred htaken.phase htaken.iter htaken.result)
  · refine ⟨w p, ?_, Stepped.unchanged h hm⟩
    simp only [localStep, take]
    split
    · rename_i hw _
      exact absurd hw hphase
    · rfl

theorem settle_stepped : Steps cfg w p a .settle := by
  refine ⟨_, rfl, ?_⟩
  cases hphase : ((w p).gcn a).phase with
  | settling id flag =>
    obtain ⟨hproper, hsent, st, hgcn, hst⟩ := settle_proper h hphase
    exact Stepped.of_update hm hproper hgcn (same_sent hsent)
      (fun _ => hm a (by rw [hphase]; simp)) (fun _ => .settled hphase hst)
  | _ =>
    have hnop : settle cfg p a (w p) = w p := by simp [settle, hphase]
    rw [hnop]
    exact Stepped.unchanged h hm

theorem release_stepped (ho : Orderly cfg w ⟨p, a, .release⟩) : Steps cfg w p a .release := by
  refine ⟨_, rfl, ?_⟩
  have hproper := release_proper (a := a) h
    (fun hphase hmask => no_owner_of_list h (ho hphase hmask))
  unfold release at hproper ⊢
  by_cases hphase : ((w p).gcn a).phase = .exhausted
  · simp only [hphase, if_true] at hproper ⊢
    exact Stepped.of_update hm hproper rfl (same_sent rfl)
      (fun _ => hm a (by rw [hphase]; simp))
      (fun _ => .gaveUp (Or.inl hphase) (Or.inl rfl) rfl rfl)
  · simp only [hphase, if_false]
    exact Stepped.unchanged h hm

theorem fail_stepped (ho : Orderly cfg w ⟨p, a, .fail⟩) : Steps cfg w p a .fail := by
  by_cases hphase : ((w p).gcn a).phase = .failing
  · have hlisted : a ∈ (w p).nextGcn ↔
        ((w p).gcn a).firstIter = false ∧ cfg.ignores p a = false := by
      rw [h.listed a]
      simp [Listed, hphase, and_comm]
    obtain ⟨l, hl, hproper, hsent, hgcn⟩ := fnFail_proper h hlisted
      (not_own_of_phase ((w p).gcn a) (by rw [hphase]; simp)).1
      (fun hb hmask _ => no_owner_of_list h (ho hphase hb hmask))
      (fun hw => by rw [hphase] at hw; cases hw)
    refine ⟨l, ?_, ?_⟩
    · simp only [localStep, fail, hphase, if_true]
      exact hl
    · exact Stepped.of_update hm hproper hgcn (same_sent hsent)
        (fun _ => hm a (by rw [hphase]; simp))
        (fun _ => .gaveUp (Or.inr hphase) (Or.inr rfl) rfl rfl)
  · refine ⟨w p, ?_, Stepped.unchanged h hm⟩
    simp [localStep, fail, hphase]

theorem allreduceFail_stepped (ho : Orderly cfg w ⟨p, a, .allreduceFail⟩) : Steps cfg w p a .allreduceFail := by
  by_cases hphase : ((w p).gcn a).phase = .waiting ∧ (cfg.alloc a).blocking = true
  · have heager := ho hphase.1 hphase.2
    have hlisted : a ∈ (w p).nextGcn ↔
        ((w p).gcn a).firstIter = false ∧ cfg.ignores p a = false := by
      rw [h.listed a]
      simp [Listed, hphase.1, and_comm]
    obtain ⟨l, hl, hproper, hsent, hgcn⟩ := fnFail_proper h hlisted
      (fun hown => by cases heager.symm.trans hown.2)
      (fun _ _ hw => absurd hphase.1 hw) (fun _ => hphase.2)
    refine ⟨l, ?_, ?_⟩
    · simp only [localStep, allreduceFail, hphase, and_self, if_true]
      exact hl
    · exact Stepped.of_update hm hproper hgcn (same_sent hsent)
        (fun _ => hm a (by rw [hphase.1]; simp)) (fun hd => absurd rfl hd.1)
  · refine ⟨w p, ?_, Stepped.unchanged h hm⟩
    simp only [localStep, allreduceFail, hphase, if_false]

theorem schedFail_stepped (ho : Orderly cfg w ⟨p, a, .schedFail⟩) : Steps cfg w p a .schedFail := by
  cases hphase : ((w p).gcn a).phase with
  | settling id flag =>
    by_cases hstay : (cfg.alloc a).blocking = true ∨ id = 0 ∧ flag = true
    · refine ⟨w p, ?_, Stepped.unchanged h hm⟩
      simp only [localStep, schedFail, hphase, hstay, if_true]
    · have hblock : (cfg.alloc a).blocking = false := by
        cases hb : (cfg.alloc a).blocking with
        | false => rfl
        | true => exact absurd (Or.inl hb) hstay
      have hign : cfg.ignores p a = false := by simp [Config.ignores, hblock]
      have hl' := enlist_proper h hphase
      obtain ⟨hph, _, _, _, hfirst⟩ := Gcn.pastFirst_spec ((w p).gcn a) (cfg.alloc a).blocking id
      have hself : (enlist cfg p a id (w p)).gcn a =
          ((w p).gcn a).pastFirst (cfg.alloc a).blocking id := update_self _ _ _
      have hwait : ((enlist cfg p a id (w p)).gcn a).phase = .settling id flag := by
        rw [hself, hph, hphase]
      have hcond : id = 0 ∨ ((w p).gcn a).firstIter = true := by
        have ho' := ho
        simp only [Orderly, hphase] at ho'
        exact ho' hblock
      have hlisted : a ∈ (enlist cfg p a id (w p)).nextGcn ↔
          ((enlist cfg p a id (w p)).gcn a).firstIter = false ∧ cfg.ignores p a = false := by
        rw [hl'.listed a, Listed, hwait, hself]
        rcases hcond with hzero | hf
        · simp [hign, hzero, Gcn.pastFirst]
        · by_cases hzero : id = 0
          · simp [hign, hzero, Gcn.pastFirst]
          · simp [Gcn.pastFirst, hblock, hzero, hf]
      obtain ⟨l, hl, hproper, hsent, hgcn⟩ := fnFail_proper hl' hlisted
        (not_own_of_phase ((enlist cfg p a id (w p)).gcn a) (by rw [hwait]; simp)).1
        (fun hb => by rw [hblock] at hb; cases hb)
        (fun hw => by rw [hwait] at hw; cases hw)
      refine ⟨l, ?_, ?_⟩
      · simp only [localStep, schedFail, hphase, hstay, if_false]
        exact hl
      · have hupd : l.gcn = update (w p).gcn a
            { (enlist cfg p a id (w p)).gcn a with phase := .failed } := by
          rw [hgcn]
          exact update_idem _ _ _
        exact Stepped.of_update hm hproper hupd (same_sent hsent)
          (fun _ => hm a (by rw [hphase]; simp)) (fun hd => absurd rfl hd.2)
  | _ =>
    refine ⟨w p, ?_, Stepped.unchanged h hm⟩
    simp only [localStep, schedFail, hphase]

theorem free_stepped : Steps cfg w p a .free := by
  obtain ⟨l, hl, hproper, hsent, st, hgcn, hph, hiter, hres⟩ := free_proper (a := a) h
  refine ⟨l, hl, ?_⟩
  refine Stepped.of_update hm hproper hgcn (same_sent hsent) ?_ (fun _ => .same hph hiter hres)
  intro hidle
  rw [hph] at hidle
  exact hm a hidle

end Actions

theorem localStep_stepped (h : Proper cfg o.proc (w o.proc)) (hm : Members cfg o.proc (w o.proc))
    (ho : Orderly cfg w o) :
    ∃ l, localStep cfg o.proc o.alloc (allreduce cfg w o.alloc ((w o.proc).gcn o.alloc).iter)
      (w o.proc) o.act = .ok l ∧ Stepped cfg w o l := by
  obtain ⟨p, a, act⟩ := o
  cases act with
  | start => exact start_stepped h hm
  | reserve => exact reserve_stepped h hm
  | take => exact take_stepped h hm
  | settle => exact settle_stepped h hm
  | release => exact release_stepped h hm ho
  | fail => exact fail_stepped h hm ho
  | allreduceFail => exact allreduceFail_stepped h hm ho
  | schedFail => exact schedFail_stepped h hm ho
  | free => exact free_stepped h hm

end LocalStep

section Advancing
variable {cfg : Config} {p : Proc} {a : AllocId} {st st' : Gcn}
  {sent sent' : Nat → Option Contribution}

theorem Advance.keeps {reduced : Option Contribution} (h : Advance cfg p a reduced st sent st' sent')
    (hu : Unsent sent st) {k : Nat} {c : Contribution} (hc : sent k = some c) :
    sent' k = some c := by
  cases h with
  | reserved hold =>
    have hk : k ≠ st.iter := by
      rintro rfl
      rw [hu.now (Or.inr hold)] at hc
      cases hc
    rw [update_of_ne hk]
    exact hc
  | _ => exact hc

theorem Advance.unsent {reduced : Option Contribution}
    (h : Advance cfg p a reduced st sent st' sent') (hu : Unsent sent st) : Unsent sent' st' := by
  cases h with
  | same hphase hiter hresult =>
    refine ⟨?_, ?_⟩
    · rw [hiter]
      exact hu.later
    · rw [hphase, hiter]
      exact hu.now
  | started hold hphase hiter hresult =>
    refine ⟨?_, fun _ => ?_⟩
    · rw [hiter]
      exact hu.later
    · rw [hiter]
      exact hu.now (Or.inl hold)
  | reserved hold hphase hiter hresult =>
    refine ⟨?_, ?_⟩
    · intro k hk
      rw [hiter] at hk
      rw [update_of_ne (Nat.ne_of_gt hk)]
      exact hu.later k hk
    · rw [hphase]
      simp
  | taken hold hred hphase hiter hresult =>
    refine ⟨?_, ?_⟩
    · rw [hiter]
      exact hu.later
    · rw [hphase]
      simp
  | settled hold hst =>
    obtain ⟨_, ⟨_, _, hiter, hphase⟩ | ⟨_, _, hiter, hphase⟩ | ⟨_, hiter, hphase⟩⟩ := hst
    · refine ⟨?_, ?_⟩
      · rw [hiter]
        exact hu.later
      · rcases hphase with hphase | hphase <;> rw [hphase] <;> simp
    · refine ⟨?_, fun _ => ?_⟩
      · intro k hk
        exact hu.later k (by omega)
      · exact hu.later _ (by omega)
    · refine ⟨?_, ?_⟩
      · rw [hiter]
        exact hu.later
      · rw [hphase]
        simp
  | gaveUp hold hphase hiter hresult =>
    refine ⟨?_, ?_⟩
    · rw [hiter]
      exact hu.later
    · rcases hphase with hphase | hphase <;> rw [hphase] <;> simp

theorem Stage.waiting {reduced : Nat → Option Contribution} {ign : Bool} (h : Stage reduced ign st)
    (hiter : st'.iter = st.iter) (hresult : st'.result = none)
    (hphase : st'.phase = .reserving ∨ st'.phase = .waiting) : Stage reduced ign st' where
  passed k hk := by
    rw [hiter] at hk
    exact h.passed k hk
  settling id flag hs := by
    rcases hphase with hp | hp <;> rw [hp] at hs <;> cases hs
  exhausted hx := by
    rcases hphase with hp | hp <;> rw [hp] at hx <;> simp at hx
  done hd := by
    rcases hphase with hp | hp <;> rw [hp] at hd <;> cases hd
  result id hid := by
    rw [hresult] at hid
    cases hid

theorem Advance.stage {reduced : Nat → Option Contribution}
    (h : Advance cfg p a (reduced st.iter) st sent st' sent')
    (hs : Stage reduced (cfg.ignores p a) st) : Stage reduced (cfg.ignores p a) st' := by
  cases h with
  | same hphase hiter hresult =>
    constructor <;> rw [hiter] <;> (try rw [hphase]) <;> (try rw [hresult])
    · exact hs.passed
    · exact hs.settling
    · exact hs.exhausted
    · exact hs.done
    · exact hs.result
  | started hold hphase hiter hresult =>
    have hnone := hs.no_result (by rw [hold]; simp) (by rw [hold]; simp)
    exact hs.waiting hiter (hresult.trans hnone) (Or.inl hphase)
  | reserved hold hphase hiter hresult =>
    have hnone := hs.no_result (by rw [hold]; simp) (by rw [hold]; simp)
    exact hs.waiting hiter (hresult.trans hnone) (Or.inr hphase)
  | @taken m flag hold hred hphase hiter hresult =>
    have hnone := hs.no_result (by rw [hold]; simp) (by rw [hold]; simp)
    rw [hnone] at hresult
    refine ⟨?_, ?_, ?_, ?_, ?_⟩
    · rw [hiter]
      exact hs.passed
    · intro id flag' hset
      rw [hphase] at hset
      cases hset
      refine ⟨⟨m, by rw [hiter]; exact hred, rfl⟩, ?_⟩
      intro hign hne
      rw [hresult, if_neg (by simp [hign, hne])]
    · rw [hphase]
      simp
    · rw [hphase]
      simp
    · intro id hid
      rw [hresult] at hid
      split at hid
      · cases hid
      · rename_i hcond
        cases hid
        rw [not_or] at hcond
        exact ⟨⟨m, flag, by rw [hiter]; exact hred, rfl, hcond.2⟩, Or.inr ⟨flag, hphase⟩⟩
  | @settled id flag hold hst =>
    obtain ⟨⟨m, hm, hid⟩, hres⟩ := hs.settling id flag hold
    obtain ⟨hresult, ⟨hzero, hflag, hiter, hphase⟩ | ⟨hzero, hflag, hiter, hphase⟩ |
      ⟨hne, hiter, hphase⟩⟩ := hst
    · -- exhaustion
      have hnone := hs.no_result (by rw [hold]; simp)
        (fun id' flag' he => by rw [hold] at he; cases he; exact hzero)
      refine ⟨?_, ?_, ?_, ?_, ?_⟩
      · rw [hiter]
        exact hs.passed
      · intro id' flag' he
        rcases hphase with hphase | hphase <;> rw [hphase] at he <;> cases he
      · intro _
        rw [hiter, ← hflag, ← hzero]
        exact ⟨m, hm, hid⟩
      · intro hd
        rcases hphase with hphase | hphase <;> rw [hphase] at hd <;> cases hd
      · intro id' hid'
        rw [hresult, hnone] at hid'
        cases hid'
    · -- the next iteration
      have hnone := hs.no_result (by rw [hold]; simp)
        (fun id' flag' he => by rw [hold] at he; cases he; exact hzero)
      refine ⟨?_, ?_, ?_, ?_, ?_⟩
      · intro k hk
        by_cases hlast : k = st.iter
        · rw [hlast, ← hflag, ← hzero]
          exact ⟨m, hm, hid⟩
        · exact hs.passed k (by omega)
      · rw [hphase]
        simp
      · rw [hphase]
        simp
      · rw [hphase]
        simp
      · intro id' hid'
        rw [hresult, hnone] at hid'
        cases hid'
    · -- success
      refine ⟨?_, ?_, ?_, ?_, ?_⟩
      · rw [hiter]
        exact hs.passed
      · rw [hphase]
        simp
      · rw [hphase]
        simp
      · intro _
        rw [hiter]
        refine ⟨m, flag, hm, by rw [hid]; exact hne, ?_⟩
        intro hign
        rw [hresult, hid]
        exact hres hign hne
      · intro id' hid'
        rw [hresult] at hid'
        rw [hiter]
        exact ⟨(hs.result id' hid').1, Or.inl hphase⟩
  | gaveUp hold hphase hiter hresult =>
    have hex := hs.exhausted (by tauto)
    have hnone := hs.no_result (by rcases hold with hold | hold <;> rw [hold] <;> simp)
      (by rcases hold with hold | hold <;> rw [hold] <;> simp)
    refine ⟨?_, ?_, ?_, ?_, ?_⟩
    · rw [hiter]
      exact hs.passed
    · intro id' flag' he
      rcases hphase with hphase | hphase <;> rw [hphase] at he <;> cases he
    · intro _
      rw [hiter]
      exact hex
    · intro hd
      rcases hphase with hphase | hphase <;> rw [hphase] at hd <;> cases hd
    · intro id' hid'
      rw [hresult, hnone] at hid'
      cases hid'

end Advancing

def Sound (cfg : Config) (w : World) : Prop := ∀ p, Proper cfg p (w p) ∧ Members cfg p (w p)

theorem init_sound (cfg : Config) (mask : Proc → ContextMask) : Sound cfg (World.init mask) :=
  fun p => ⟨init_proper cfg mask p, fun _ hphase => absurd rfl hphase⟩

theorem step_sound {o : Op} (h : Sound cfg w) (ho : Orderly cfg w o) :
    ∃ l, step cfg w o = .ok (update w o.proc l) ∧ Stepped cfg w o l ∧
      Sound cfg (update w o.proc l) := by
  obtain ⟨l, hl, hst⟩ := localStep_stepped (h o.proc).1 (h o.proc).2 ho
  refine ⟨l, ?_, hst, ?_⟩
  · unfold step
    rw [hl]
    rfl
  · intro p
    by_cases hp : p = o.proc
    · rw [hp, update_self]
      exact ⟨hst.proper, hst.members⟩
    · rw [update_of_ne hp]
      exact h p

theorem step_lockstep {o : Op} {l : Local} (h : Lockstep cfg w)
    (hst : Stepped cfg w o l) (hd : Delivered o.act) :
    Lockstep cfg (update w o.proc l) := by
  obtain ⟨st, sent, hgcn, hsent, hadv⟩ := hst.advance
  have hadv := hadv hd
  have hkeep : ∀ b k q c, (w q).sent b k = some c →
      (update w o.proc l q).sent b k = some c := by
    intro b k q c hc
    by_cases hq : q = o.proc
    · subst hq
      rw [update_self, hsent]
      by_cases hb : b = o.alloc
      · subst hb
        rw [update_self]
        exact hadv.keeps (h.unsent _ _) hc
      · rw [update_of_ne hb]
        exact hc
    · rw [update_of_ne hq]
      exact hc
  have hmono : ∀ b k r, allreduce cfg w b k = some r →
      allreduce cfg (update w o.proc l) b k = some r :=
    fun b k r hr => allreduce_mono (hkeep b k) hr
  constructor
  · intro q b
    by_cases hq : q = o.proc
    · subst hq
      rw [update_self, hsent, hgcn]
      by_cases hb : b = o.alloc
      · subst hb
        rw [update_self, update_self]
        exact hadv.unsent (h.unsent _ _)
      · rw [update_of_ne hb, update_of_ne hb]
        exact h.unsent _ b
    · rw [update_of_ne hq]
      exact h.unsent q b
  · intro q b
    by_cases hq : q = o.proc
    · subst hq
      rw [update_self, hgcn]
      by_cases hb : b = o.alloc
      · subst hb
        rw [update_self]
        exact (hadv.stage (h.stage _ _)).mono (hmono _)
      · rw [update_of_ne hb]
        exact (h.stage _ b).mono (hmono b)
    · rw [update_of_ne hq]
      exact (h.stage q b).mono (hmono b)

end FgMpi.ContextId.Agreement
