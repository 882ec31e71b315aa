import FgMpi.Machine.Guard
import FgMpi.ContextId.Allocation

/-! What holds of one process between any two operations. -/

namespace FgMpi.ContextId.Exclusion
open Machine.Checked Machine.Guard
open ContextId.Mask ContextId.Allocation

def OwnsEager (st : Gcn) : Prop := st.phase = .waiting ∧ st.ownEagerMask = true

def OwnsBase (st : Gcn) : Prop := st.phase = .waiting ∧ st.ownMask = true

instance (st : Gcn) : Decidable (OwnsEager st) := inferInstanceAs (Decidable (_ ∧ _))

instance (st : Gcn) : Decidable (OwnsBase st) := inferInstanceAs (Decidable (_ ∧ _))

structure GcnOk (ign : Bool) (st : Gcn) : Prop where
  idleFirst : st.phase = .idle → st.firstIter = true
  eagerWaits : st.ownEagerMask = true → st.phase = .waiting ∨ st.phase = .failed
  eagerFirst : st.ownEagerMask = true → st.firstIter = true
  baseLater : st.ownMask = true → st.firstIter = false
  ignoring : ign = true → st.ownMask = false ∧ st.ownEagerMask = false
  settlingLate : ∀ id, st.phase = .settling id true → ign = true ∨ st.firstIter = false
  exhaustedLate : st.phase = .exhausted ∨ st.phase = .failing → ign = true ∨ st.firstIter = false

theorem GcnOk.noEager {ign : Bool} {st : Gcn} (h : GcnOk ign st) (hwait : st.phase ≠ .waiting)
    (hfailed : st.phase ≠ .failed) : st.ownEagerMask = false := by
  cases he : st.ownEagerMask with
  | false => rfl
  | true =>
    rcases h.eagerWaits he with hw | hf
    · exact absurd hw hwait
    · exact absurd hf hfailed

theorem GcnOk.moved {ign : Bool} {st st' : Gcn} (h : GcnOk ign st) (hno : st.ownEagerMask = false)
    (hfirst : st'.firstIter = st.firstIter) (hmask : st'.ownMask = st.ownMask)
    (heager : st'.ownEagerMask = st.ownEagerMask) (hidle : st'.phase ≠ .idle)
    (hsettling : ∀ id, st'.phase ≠ .settling id true)
    (hlate : st'.phase = .exhausted ∨ st'.phase = .failing → ign = true ∨ st.firstIter = false) :
    GcnOk ign st' where
  idleFirst hi := absurd hi hidle
  eagerWaits he := by
    rw [heager, hno] at he
    cases he
  eagerFirst he := by
    rw [heager, hno] at he
    cases he
  baseLater hb := by
    rw [hmask] at hb
    rw [hfirst]
    exact h.baseLater hb
  ignoring hi := by
    rw [hmask, heager]
    exact h.ignoring hi
  settlingLate id hs := absurd hs (hsettling id)
  exhaustedLate hx := by
    rw [hfirst]
    exact hlate hx

def Listed (ign : Bool) (st : Gcn) : Prop :=
  ign = false ∧ st.firstIter = false ∧
    (st.phase = .reserving ∨ st.phase = .waiting ∨ (∃ flag, st.phase = .settling 0 flag) ∨
      st.phase = .exhausted ∨ st.phase = .failing)

structure SentOk (eagerNelem : Nat) (ign : Bool) (mask : ContextMask) (st : Gcn)
    (c : Contribution) : Prop where
  eager : st.ownEagerMask = true → ∀ id, hasBit c.1 id = true →
    hasBit mask id = true ∧ prefixField id / 32 < eagerNelem
  base : st.ownMask = true → ∀ id, hasBit c.1 id = true →
    hasBit mask id = true ∧ eagerNelem ≤ prefixField id / 32
  nothing : ign = false → st.ownEagerMask = false → st.ownMask = false →
    ∀ id, hasBit c.1 id = false
  flag : c.2 = (st.ownMask || ign)

structure Proper (cfg : Config) (p : Proc) (l : Local) : Prop where
  gcnOk : ∀ a, GcnOk (cfg.ignores p a) (l.gcn a)
  listed : ∀ a, a ∈ l.nextGcn ↔ Listed (cfg.ignores p a) (l.gcn a)
  nodup : l.nextGcn.Nodup
  eager : Guarded l.eagerInUse (fun a => OwnsEager (l.gcn a))
  base : Guarded l.maskInUse (fun a => OwnsBase (l.gcn a))
  sent : ∀ a, (l.gcn a).phase = .waiting → ∃ c, l.sent a (l.gcn a).iter = some c ∧
    SentOk cfg.eagerNelem (cfg.ignores p a) l.mask (l.gcn a) c
  held : ∀ a id, (l.gcn a).holds = some id → Allocatable id ∧ hasBit l.mask id = false
  heldOnce : ∀ a b id, (l.gcn a).holds = some id → (l.gcn b).holds = some id → a = b

theorem init_proper (cfg : Config) (mask : Proc → ContextMask) (p : Proc) :
    Proper cfg p (World.init mask p) where
  gcnOk a := by constructor <;> simp [World.init]
  listed a := by simp [World.init, Listed]
  nodup := List.nodup_nil
  eager := Guarded.free (fun b hb => by simp [World.init, OwnsEager] at hb)
  base := Guarded.free (fun b hb => by simp [World.init, OwnsBase] at hb)
  sent a ha := by simp [World.init] at ha
  held a id h := by simp [World.init] at h
  heldOnce a b id h := by simp [World.init] at h

section Update
variable {cfg : Config} {p : Proc} {l l' : Local} {a : AllocId} {st : Gcn}

theorem Proper.update (h : Proper cfg p l) (hgcn : l'.gcn = Function.update l.gcn a st)
    (hok : GcnOk (cfg.ignores p a) st) (hlisted : ∀ b, b ∈ l'.nextGcn ↔
      b = a ∧ Listed (cfg.ignores p a) st ∨ b ≠ a ∧ b ∈ l.nextGcn)
    (hnodup : l'.nextGcn.Nodup)
    (heager : Guarded l'.eagerInUse (fun b => b = a ∧ OwnsEager st ∨ b ≠ a ∧ OwnsEager (l.gcn b)))
    (hbase : Guarded l'.maskInUse (fun b => b = a ∧ OwnsBase st ∨ b ≠ a ∧ OwnsBase (l.gcn b)))
    (hsent : st.phase = .waiting → ∃ c, l'.sent a st.iter = some c ∧
      SentOk cfg.eagerNelem (cfg.ignores p a) l'.mask st c)
    (hothers : ∀ b, b ≠ a → (l.gcn b).phase = .waiting → ∀ c,
      l.sent b (l.gcn b).iter = some c → l'.sent b (l.gcn b).iter = some c ∧
        (SentOk cfg.eagerNelem (cfg.ignores p b) l.mask (l.gcn b) c →
          SentOk cfg.eagerNelem (cfg.ignores p b) l'.mask (l.gcn b) c))
    (hheld : ∀ id, st.holds = some id → Allocatable id ∧ hasBit l'.mask id = false ∧
      ∀ b, b ≠ a → (l.gcn b).holds ≠ some id)
    (hkept : ∀ b id, b ≠ a → (l.gcn b).holds = some id → hasBit l'.mask id = false) :
    Proper cfg p l' := by
  have hself : l'.gcn a = st := by rw [hgcn, Function.update_self]
  have hne : ∀ b, b ≠ a → l'.gcn b = l.gcn b := fun b hb => by
    rw [hgcn, Function.update_of_ne hb]
  have hown : ∀ (own : Gcn → Prop) b, own (l'.gcn b) ↔ b = a ∧ own st ∨ b ≠ a ∧ own (l.gcn b) := by
    intro own b
    by_cases hba : b = a
    · rw [hba, hself]
      tauto
    · rw [hne b hba]
      tauto
  refine ⟨?_, ?_, hnodup, heager.congr (hown OwnsEager), hbase.congr (hown OwnsBase), ?_, ?_, ?_⟩
  · intro b
    by_cases hba : b = a
    · rw [hba, hself]
      exact hok
    · rw [hne b hba]
      exact h.gcnOk b
  · intro b
    rw [hlisted]
    by_cases hba : b = a
    · subst hba
      rw [hself]
      tauto
    · rw [hne b hba, ← h.listed b]
      tauto
  · intro b hb
    by_cases hba : b = a
    · subst hba
      rw [hself] at hb ⊢
      exact hsent hb
    · rw [hne b hba] at hb ⊢
      obtain ⟨c, hc, hcok⟩ := h.sent b hb
      obtain ⟨hc', hmono⟩ := hothers b hba hb c hc
      exact ⟨c, hc', hmono hcok⟩
  · intro b id hb
    by_cases hba : b = a
    · rw [hba, hself] at hb
      exact ⟨(hheld id hb).1, (hheld id hb).2.1⟩
    · rw [hne b hba] at hb
      exact ⟨(h.held b id hb).1, hkept b id hba hb⟩
  · intro b c id hb hc
    by_cases hba : b = a <;> by_cases hca : c = a
    · rw [hba, hca]
    · rw [hba, hself] at hb
      rw [hne c hca] at hc
      exact absurd hc ((hheld id hb).2.2 c hca)
    · rw [hne b hba] at hb
      rw [hca, hself] at hc
      exact absurd hb ((hheld id hc).2.2 b hba)
    · rw [hne b hba] at hb
      rw [hne c hca] at hc
      exact h.heldOnce b c id hb hc

theorem Proper.update_flags (h : Proper cfg p l) (hgcn : l'.gcn = Function.update l.gcn a st)
    (hmask : l'.mask = l.mask) (hsame : l'.sent = l.sent) (hwait : st.phase ≠ .waiting)
    (hholds : st.holds = (l.gcn a).holds) (hok : GcnOk (cfg.ignores p a) st) (hlisted : ∀ b, b ∈ l'.nextGcn ↔
      b = a ∧ Listed (cfg.ignores p a) st ∨ b ≠ a ∧ b ∈ l.nextGcn)
    (hnodup : l'.nextGcn.Nodup)
    (heager : Guarded l'.eagerInUse (fun b => b ≠ a ∧ OwnsEager (l.gcn b)))
    (hbase : Guarded l'.maskInUse (fun b => b ≠ a ∧ OwnsBase (l.gcn b))) :
    Proper cfg p l' := by
  refine h.update hgcn hok hlisted hnodup (heager.congr ?_) (hbase.congr ?_)
    (fun hw => absurd hw hwait) ?_ ?_ ?_
  · intro b
    have hno : ¬ OwnsEager st := fun ho => hwait ho.1
    tauto
  · intro b
    have hno : ¬ OwnsBase st := fun ho => hwait ho.1
    tauto
  · intro b _ _ c hc
    rw [hsame, hmask]
    exact ⟨hc, id⟩
  · intro id hid
    rw [hholds] at hid
    rw [hmask]
    exact ⟨(h.held a id hid).1, (h.held a id hid).2,
      fun b hba hb => hba (h.heldOnce b a id hb hid)⟩
  · intro b id _ hb
    rw [hmask]
    exact (h.held b id hb).2

theorem Proper.listed_same (h : Proper cfg p l)
    (hst : Listed (cfg.ignores p a) st ↔ Listed (cfg.ignores p a) (l.gcn a)) (b : AllocId) :
    b ∈ l.nextGcn ↔ b = a ∧ Listed (cfg.ignores p a) st ∨ b ≠ a ∧ b ∈ l.nextGcn := by
  by_cases hba : b = a
  · subst hba
    rw [hst, ← h.listed b]
    tauto
  · tauto

end Update

section Steps
variable {cfg : Config} {p : Proc} {l : Local} {a : AllocId}

theorem not_own_of_phase (st : Gcn) (h : st.phase ≠ .waiting) : ¬ OwnsEager st ∧ ¬ OwnsBase st :=
  ⟨fun ho => h ho.1, fun ho => h ho.1⟩

theorem Proper.eager_others (h : Proper cfg p l) (hown : ¬ OwnsEager (l.gcn a)) :
    Guarded l.eagerInUse (fun b => b ≠ a ∧ OwnsEager (l.gcn b)) := by
  refine h.eager.congr ?_
  intro b
  constructor
  · exact And.right
  · intro hb
    refine ⟨?_, hb⟩
    rintro rfl
    exact hown hb

theorem Proper.base_others (h : Proper cfg p l) (hown : ¬ OwnsBase (l.gcn a)) :
    Guarded l.maskInUse (fun b => b ≠ a ∧ OwnsBase (l.gcn b)) := by
  refine h.base.congr ?_
  intro b
  constructor
  · exact And.right
  · intro hb
    refine ⟨?_, hb⟩
    rintro rfl
    exact hown hb

theorem start_proper (h : Proper cfg p l) : Proper cfg p (start cfg p a l) := by
  unfold start
  split
  · rename_i hidle
    have hno := not_own_of_phase (l.gcn a) (by rw [hidle.1]; simp)
    have hfirst := (h.gcnOk a).idleFirst hidle.1
    refine h.update_flags rfl rfl rfl (by simp) rfl ?_ ?_ h.nodup
      (h.eager_others hno.1) (h.base_others hno.2)
    · have hok := h.gcnOk a
      have hnoEager := hok.noEager (by rw [hidle.1]; simp) (by rw [hidle.1]; simp)
      exact hok.moved hnoEager rfl rfl rfl (by simp) (by simp) (by simp)
    · refine h.listed_same ?_
      simp [Listed, hidle.1, hfirst]
  · exact h

variable {m : ContextMask} {id : Nat}

theorem hasBit_low {n : Nat}
    (h : hasBit (fun i => if i < n then m i else 0) id = true) :
    hasBit m id = true ∧ prefixField id / 32 < n := by
  simp only [hasBit] at h ⊢
  by_cases hlt : prefixField id / 32 < n
  · rw [if_pos hlt] at h
    exact ⟨h, hlt⟩
  · rw [if_neg hlt] at h
    simp at h

theorem hasBit_high {n : Nat}
    (h : hasBit (fun i => if i < n then 0 else m i) id = true) :
    hasBit m id = true ∧ n ≤ prefixField id / 32 := by
  simp only [hasBit] at h ⊢
  by_cases hlt : prefixField id / 32 < n
  · rw [if_pos hlt] at h
    simp at h
  · rw [if_neg hlt] at h
    exact ⟨h, Nat.not_lt.mp hlt⟩

theorem hasBit_zero (id : Nat) : hasBit (fun _ => 0) id = false := by
  simp [hasBit]

variable {st : Gcn}

theorem Proper.send (h : Proper cfg p l) {l' : Local} {c : Contribution}
    (hphase : (l.gcn a).phase = .reserving) (hgcn : l'.gcn = Function.update l.gcn a st)
    (hsent : l'.sent = Function.update l.sent a (Function.update (l.sent a) st.iter (some c)))
    (hmask : l'.mask = l.mask) (hlist : l'.nextGcn = l.nextGcn) (hwait : st.phase = .waiting)
    (hholds : st.holds = (l.gcn a).holds) (hfirst : st.firstIter = (l.gcn a).firstIter)
    (heagerFirst : st.ownEagerMask = true → st.firstIter = true)
    (hbaseLater : st.ownMask = true → st.firstIter = false)
    (hign : cfg.ignores p a = true → st.ownMask = false ∧ st.ownEagerMask = false)
    (heager : Guarded l'.eagerInUse (fun b => b = a ∧ OwnsEager st ∨ b ≠ a ∧ OwnsEager (l.gcn b)))
    (hbase : Guarded l'.maskInUse (fun b => b = a ∧ OwnsBase st ∨ b ≠ a ∧ OwnsBase (l.gcn b)))
    (hok : SentOk cfg.eagerNelem (cfg.ignores p a) l.mask st c) : Proper cfg p l' := by
  refine h.update hgcn ?_ ?_ ?_ heager hbase ?_ ?_ ?_ ?_
  · refine ⟨?_, fun _ => Or.inl hwait, heagerFirst, hbaseLater, hign, ?_, ?_⟩
    · intro hi
      rw [hwait] at hi
      cases hi
    · intro id hs
      rw [hwait] at hs
      cases hs
    · intro hx
      rw [hwait] at hx
      rcases hx with hx | hx <;> cases hx
  · rw [hlist]
    refine h.listed_same ?_
    simp [Listed, hwait, hphase, hfirst]
  · rw [hlist]
    exact h.nodup
  · intro _
    rw [hmask]
    exact ⟨c, by rw [hsent, Function.update_self, Function.update_self], hok⟩
  · intro b hba _ c' hc'
    rw [hsent, Function.update_of_ne hba, hmask]
    exact ⟨hc', id⟩
  · intro id hid
    rw [hholds] at hid
    rw [hmask]
    exact ⟨(h.held a id hid).1, (h.held a id hid).2,
      fun b hba hb => hba (h.heldOnce b a id hb hid)⟩
  · intro b id _ hb
    rw [hmask]
    exact (h.held b id hb).2

theorem reserve_proper (h : Proper cfg p l) : ∃ l', reserve cfg p a l = .ok l' ∧ Proper cfg p l' := by
  unfold reserve
  by_cases hphase : (l.gcn a).phase = .reserving
  swap
  · simp only [ne_eq, hphase, not_false_eq_true, if_true]
    exact ⟨l, rfl, h⟩
  have hok := h.gcnOk a
  have hno := not_own_of_phase (l.gcn a) (by rw [hphase]; simp)
  have hnoEager := hok.noEager (by rw [hphase]; simp) (by rw [hphase]; simp)
  have noEager : ¬ (l.gcn a).ownEagerMask = true := by simp [hnoEager]
  -- a call that sends without owning leaves both segments to the others
  have hkeepEager : ∀ st : Gcn, st.ownEagerMask = false →
      Guarded l.eagerInUse (fun b => b = a ∧ OwnsEager st ∨ b ≠ a ∧ OwnsEager (l.gcn b)) := by
    intro st hst
    refine (h.eager_others hno.1).congr ?_
    intro b
    have hnot : ¬ OwnsEager st := fun ho => by rw [ho.2] at hst; cases hst
    tauto
  have hkeepBase : ∀ st : Gcn, st.ownMask = false →
      Guarded l.maskInUse (fun b => b = a ∧ OwnsBase st ∨ b ≠ a ∧ OwnsBase (l.gcn b)) := by
    intro st hst
    refine (h.base_others hno.2).congr ?_
    intro b
    have hnot : ¬ OwnsBase st := fun ho => by rw [ho.2] at hst; cases hst
    tauto
  simp only [ne_eq, hphase, not_true_eq_false, if_false]
  by_cases hign : cfg.ignores p a = true
  · rw [if_pos hign]
    refine ⟨_, rfl, h.send hphase rfl rfl rfl rfl rfl rfl rfl ?_ ?_ ?_ (hkeepEager _ ?_)
      (hkeepBase _ rfl) ?_⟩
    · exact fun he => absurd he noEager
    · intro hb
      cases hb
    · exact fun _ => ⟨rfl, hnoEager⟩
    · exact hnoEager
    · refine ⟨?_, fun hb => (nomatch hb), ?_, by simp [hign]⟩
      · exact fun he => absurd he noEager
      · intro hi
        rw [hign] at hi
        cases hi
  rw [if_neg hign]
  have hign' : cfg.ignores p a = false := by simpa using hign
  cases hfirst : (l.gcn a).firstIter with
  | true =>
    have hnoMask : (l.gcn a).ownMask = false := by
      cases hm : (l.gcn a).ownMask with
      | false => rfl
      | true =>
        rw [hok.baseLater hm] at hfirst
        cases hfirst
    have noMask : ¬ (l.gcn a).ownMask = true := by simp [hnoMask]
    rw [if_pos rfl]
    by_cases hfree : l.eagerInUse = false ∧ 0 < cfg.eagerNelem
    · rw [if_pos hfree]
      refine ⟨_, rfl, h.send hphase rfl rfl rfl rfl rfl rfl hfirst.symm ?_ ?_ ?_ ?_ (hkeepBase _ ?_) ?_⟩
      · exact fun _ => rfl
      · exact fun hb => absurd hb noMask
      · intro hi
        rw [hign'] at hi
        cases hi
      · -- the eager segment was free and is now this call's
        have hg := h.eager_others hno.1
        rw [hfree.1] at hg
        refine hg.acquire (a := a) ?_
        intro b
        simp only [OwnsEager, and_self, and_true]
        tauto
      · exact hnoMask
      · refine ⟨fun _ id hid => hasBit_low hid, ?_, fun _ he => (nomatch he), ?_⟩
        · exact fun hb => absurd hb noMask
        · simp [hign']
    · rw [if_neg hfree]
      refine ⟨_, rfl, h.send hphase rfl rfl rfl rfl rfl rfl hfirst.symm ?_ ?_ ?_ (hkeepEager _ rfl)
        (hkeepBase _ ?_) ?_⟩
      · intro he
        cases he
      · exact fun hb => absurd hb noMask
      · intro hi
        rw [hign'] at hi
        cases hi
      · exact hnoMask
      · refine ⟨fun he => (nomatch he), ?_, fun _ _ _ id => hasBit_zero id, ?_⟩
        · exact fun hb => absurd hb noMask
        · simp [hign']
  | false =>
    rw [if_neg (by simp)]
    have hin : a ∈ l.nextGcn := (h.listed a).mpr ⟨hign', hfirst, Or.inl hphase⟩
    have hne : l.nextGcn ≠ [] := List.ne_nil_of_mem hin
    rw [require_bind, if_pos (Or.inr hne)]
    by_cases hbusy : l.maskInUse = true ∨ l.nextGcn.head? ≠ some a
    · rw [if_pos hbusy]
      refine ⟨_, rfl, h.send hphase rfl rfl rfl rfl rfl rfl hfirst.symm ?_ ?_ ?_ (hkeepEager _ ?_)
        (hkeepBase _ rfl) ?_⟩
      · exact fun he => absurd he noEager
      · intro hb
        cases hb
      · exact fun _ => ⟨rfl, hnoEager⟩
      · exact hnoEager
      · refine ⟨?_, fun hb => (nomatch hb), fun _ _ _ id => hasBit_zero id, by simp [hign']⟩
        exact fun he => absurd he noEager
    · rw [if_neg hbusy]
      have hfree : l.maskInUse = false := by
        cases hm : l.maskInUse with
        | false => rfl
        | true => exact absurd (Or.inl hm) hbusy
      refine ⟨_, rfl, h.send hphase rfl rfl rfl rfl rfl rfl hfirst.symm ?_ ?_ ?_ (hkeepEager _ ?_) ?_ ?_⟩
      · exact fun he => absurd he noEager
      · exact fun _ => rfl
      · intro hi
        rw [hign'] at hi
        cases hi
      · exact hnoEager
      · -- the base segment was free and is now this call's
        have hg := h.base_others hno.2
        rw [hfree] at hg
        refine hg.acquire (a := a) ?_
        intro b
        simp only [OwnsBase, and_self, and_true]
        tauto
      · refine ⟨?_, fun _ id hid => hasBit_high hid, ?_, by simp⟩
        · exact fun he => absurd he noEager
        · intro _ _ hb
          cases hb

variable {list : List AllocId}

theorem unlistIf_of_mem {c : Prop} [Decidable c] (h : a ∈ list) :
    unlistIf c a list = .ok (if c then list.erase a else list) := by
  unfold unlistIf unlist
  rw [if_pos h]
  split <;> rfl

structure Taken (cfg : Config) (p : Proc) (a : AllocId) (l : Local) (m : ContextMask)
    (flag : Bool) (l' : Local) (st : Gcn) : Prop where
  gcn : l'.gcn = Function.update l.gcn a st
  sent : l'.sent = l.sent
  phase : st.phase = .settling (locateContextBit m) flag
  iter : st.iter = (l.gcn a).iter
  result : st.result = if cfg.ignores p a = true ∨ locateContextBit m = 0 then (l.gcn a).result
    else some (locateContextBit m)
  bit : cfg.ignores p a = false → locateContextBit m ≠ 0 →
    hasBit l.mask (locateContextBit m) = true ∧ hasBit l'.mask (locateContextBit m) = false

theorem Gcn.obtain_holds (st : Gcn) (id : Nat) :
    (st.obtain id).holds = if id = 0 then st.holds else some id := by
  unfold Gcn.obtain
  split <;> rfl

theorem Gcn.obtain_result (st : Gcn) (id : Nat) :
    (st.obtain id).result = if id = 0 then st.result else some id := by
  unfold Gcn.obtain
  split <;> rfl

@[simp] theorem Gcn.obtain_phase (st : Gcn) (id : Nat) : (st.obtain id).phase = st.phase := by
  unfold Gcn.obtain
  split <;> rfl

@[simp] theorem Gcn.obtain_iter (st : Gcn) (id : Nat) : (st.obtain id).iter = st.iter := by
  unfold Gcn.obtain
  split <;> rfl

@[simp] theorem Gcn.obtain_firstIter (st : Gcn) (id : Nat) : (st.obtain id).firstIter = st.firstIter := by
  unfold Gcn.obtain
  split <;> rfl

@[simp] theorem Gcn.obtain_ownMask (st : Gcn) (id : Nat) : (st.obtain id).ownMask = st.ownMask := by
  unfold Gcn.obtain
  split <;> rfl

@[simp] theorem Gcn.obtain_ownEagerMask (st : Gcn) (id : Nat) :
    (st.obtain id).ownEagerMask = st.ownEagerMask := by
  unfold Gcn.obtain
  split <;> rfl

theorem Proper.take_owned (h : Proper cfg p l) {l' : Local} (m : ContextMask)
    (flag : Bool) (hgcn : l'.gcn = Function.update l.gcn a st) (hsame : l'.sent = l.sent)
    (hmask : ∀ x, hasBit l'.mask x = (hasBit l.mask x &&
      decide (locateContextBit m = 0 ∨ prefixField x ≠ prefixField (locateContextBit m))))
    (hsub : ∀ id, hasBit m id = true → hasBit l.mask id = true)
    (hphase : st.phase = .settling (locateContextBit m) flag)
    (hholds : st.holds =
      if locateContextBit m = 0 then (l.gcn a).holds else some (locateContextBit m))
    (hok : GcnOk (cfg.ignores p a) st)
    (hlisted : ∀ b, b ∈ l'.nextGcn ↔
      b = a ∧ Listed (cfg.ignores p a) st ∨ b ≠ a ∧ b ∈ l.nextGcn)
    (hnodup : l'.nextGcn.Nodup)
    (heager : Guarded l'.eagerInUse (fun b => b ≠ a ∧ OwnsEager (l.gcn b)))
    (hbase : Guarded l'.maskInUse (fun b => b ≠ a ∧ OwnsBase (l.gcn b)))
    (hseg : ∀ b, b ≠ a → (l.gcn b).phase = .waiting → ∀ c id,
      SentOk cfg.eagerNelem (cfg.ignores p b) l.mask (l.gcn b) c →
      (l.gcn b).ownEagerMask = true ∨ (l.gcn b).ownMask = true → hasBit c.1 id = true →
      locateContextBit m = 0 ∨ prefixField id ≠ prefixField (locateContextBit m)) :
    Proper cfg p l' := by
  have hwait : st.phase ≠ .waiting := by
    rw [hphase]
    simp
  have hno := not_own_of_phase _ hwait
  have hless : ∀ x, hasBit l.mask x = false → hasBit l'.mask x = false := by
    intro x hx
    rw [hmask x, hx]
    rfl
  refine h.update hgcn hok hlisted hnodup (heager.congr ?_) (hbase.congr ?_)
    (fun hw => absurd hw hwait) ?_ ?_ ?_
  · intro b
    tauto
  · intro b
    tauto
  · intro b hba hb c hc
    rw [hsame]
    refine ⟨hc, ?_⟩
    intro hcok
    refine ⟨?_, ?_, hcok.nothing, hcok.flag⟩
    · intro he id hid
      obtain ⟨hbit, hword⟩ := hcok.eager he id hid
      refine ⟨?_, hword⟩
      rw [hmask id, hbit, decide_eq_true (hseg b hba hb c id hcok (Or.inl he) hid)]
      rfl
    · intro hbm id hid
      obtain ⟨hbit, hword⟩ := hcok.base hbm id hid
      refine ⟨?_, hword⟩
      rw [hmask id, hbit, decide_eq_true (hseg b hba hb c id hcok (Or.inr hbm) hid)]
      rfl
  · intro id hid
    rw [hholds] at hid
    by_cases hzero : locateContextBit m = 0
    · rw [if_pos hzero] at hid
      exact ⟨(h.held a id hid).1, hless id (h.held a id hid).2,
        fun b hba hb => hba (h.heldOnce b a id hb hid)⟩
    · rw [if_neg hzero] at hid
      cases hid
      obtain ⟨halloc, hbit, _⟩ := locateContextBit_spec hzero
      refine ⟨halloc, ?_, ?_⟩
      · rw [hmask]
        simp [hzero]
      · intro b _ hb
        have hclear := (h.held b _ hb).2
        rw [hsub _ hbit] at hclear
        cases hclear
  · intro b id _ hb
    exact hless id (h.held b id hb).2

variable {flag : Bool}

def Takes (cfg : Config) (p : Proc) (a : AllocId) (l : Local) (m : ContextMask) (flag : Bool) : Prop :=
  ∃ l' st, take cfg p a (some (m, flag)) l = .ok l' ∧ Proper cfg p l' ∧ Taken cfg p a l m flag l' st

theorem take_ignoring (h : Proper cfg p l) (hphase : (l.gcn a).phase = .waiting) (hign : cfg.ignores p a = true) :
    Takes cfg p a l m flag := by
  have hok := h.gcnOk a
  obtain ⟨hnoMask, hnoEager⟩ := hok.ignoring hign
  simp only [Takes, take, hphase]
  rw [if_pos hign]
  refine ⟨_, _, rfl, ?_, ⟨rfl, rfl, rfl, rfl, by rw [if_pos (Or.inl hign)],
    fun hi => by rw [hign] at hi; cases hi⟩⟩
  refine h.update_flags rfl rfl rfl (by simp) rfl ?_ ?_ h.nodup ?_ ?_
  · refine ⟨fun hi => (nomatch hi), ?_, hok.eagerFirst, hok.baseLater, hok.ignoring,
      fun id _ => Or.inl hign, fun _ => Or.inl hign⟩
    intro he
    exact absurd he (by simp [hnoEager])
  · refine h.listed_same ?_
    simp [Listed, hign]
  · exact h.eager_others (fun ho => absurd ho.2 (by simp [hnoEager]))
  · exact h.base_others (fun ho => absurd ho.2 (by simp [hnoMask]))

section Owning
variable {c : Contribution} (h : Proper cfg p l) (hphase : (l.gcn a).phase = .waiting)
  (hcok : SentOk cfg.eagerNelem (cfg.ignores p a) l.mask (l.gcn a) c) (hign : cfg.ignores p a = false)
  (hbits : ∀ id, hasBit m id = true → hasBit c.1 id = true)

include hign in
theorem result_owning (r : Option Nat) :
    (if cfg.ignores p a = true ∨ locateContextBit m = 0 then r else some (locateContextBit m)) =
      if locateContextBit m = 0 then r else some (locateContextBit m) := by
  simp [hign]

include hcok hign in
theorem flag_owning (hflag : flag = true → c.2 = true) (hnoMask : (l.gcn a).ownMask = false) : flag = false := by
  cases hf : flag with
  | false => rfl
  | true =>
    have hcf := hflag hf
    rw [hcok.flag, hnoMask, hign] at hcf
    cases hcf

include h hphase hcok hign hbits in
theorem take_eager (hflag : flag = true → c.2 = true) (he : (l.gcn a).ownEagerMask = true) :
    Takes cfg p a l m flag := by
  have hok := h.gcnOk a
  have hfirst := hok.eagerFirst he
  have hnoMask : (l.gcn a).ownMask = false := by
    cases hm : (l.gcn a).ownMask with
    | false => rfl
    | true =>
      rw [hok.baseLater hm] at hfirst
      cases hfirst
  have hsub : ∀ id, hasBit m id = true → hasBit l.mask id = true :=
    fun id hid => (hcok.eager he id (hbits id hid)).1
  have hnoFlag := flag_owning hcok hign hflag hnoMask
  simp only [Takes, take, hphase]
  rw [if_neg (by simp [hign]), if_pos he]
  obtain ⟨mask', hfind, hmask'⟩ := findAndAllocateContextId_spec hsub
  simp only [hfind]
  refine ⟨_, _, rfl, ?_, ⟨rfl, rfl, by simp, by simp, ?_, ?_⟩⟩
  · refine h.take_owned m flag rfl rfl hmask' hsub (by simp) ?_ ?_ ?_ h.nodup
      ?_ ?_ ?_
    · rw [Gcn.obtain_holds]
    · refine ⟨by simp, by simp, by simp, ?_, ?_, ?_, by simp⟩
      · simp [hnoMask]
      · intro hi
        rw [hign] at hi
        cases hi
      · simp [hnoFlag]
    · refine h.listed_same ?_
      simp [Listed, hfirst]
    · refine h.eager.release (a := a) ⟨hphase, he⟩ ?_
      intro b
      tauto
    · exact h.base_others (fun ho => absurd ho.2 (by simp [hnoMask]))
    · intro b hba hb c'' id hcok'' hown hid
      rcases hown with hown | hown
      · exact absurd (h.eager.unique b a ⟨hb, hown⟩ ⟨hphase, he⟩) hba
      · by_cases hzero : locateContextBit m = 0
        · exact Or.inl hzero
        · right
          have hhigh := (hcok''.base hown id hid).2
          have hlow := (hcok.eager he _ (hbits _ (locateContextBit_spec hzero).2.1)).2
          intro heq
          rw [heq] at hhigh
          omega
  · rw [Gcn.obtain_result, result_owning hign]
  · intro _ hzero
    refine ⟨hsub _ (locateContextBit_spec hzero).2.1, ?_⟩
    show hasBit mask' _ = false
    rw [hmask']
    simp [hzero]

include h hphase hcok hign hbits in
theorem take_base (hnoEager : (l.gcn a).ownEagerMask = false) (hb : (l.gcn a).ownMask = true) :
    Takes cfg p a l m flag := by
  have hfirst := (h.gcnOk a).baseLater hb
  have hin : a ∈ l.nextGcn := (h.listed a).mpr ⟨hign, hfirst, Or.inr (Or.inl hphase)⟩
  have hsub : ∀ id, hasBit m id = true → hasBit l.mask id = true :=
    fun id hid => (hcok.base hb id (hbits id hid)).1
  simp only [Takes, take, hphase]
  rw [if_neg (by simp [hign]), if_neg (by simp [hnoEager]), if_pos hb]
  obtain ⟨mask', hfind, hmask'⟩ := findAndAllocateContextId_spec hsub
  simp only [hfind, unlistIf_of_mem hin]
  refine ⟨_, _, rfl, ?_, ⟨rfl, rfl, by simp, by simp, ?_, ?_⟩⟩
  · refine h.take_owned m flag rfl rfl hmask' hsub (by simp) ?_ ?_ ?_ ?_
      ?_ ?_ ?_
    · rw [Gcn.obtain_holds]
    · refine ⟨by simp, by simp [hnoEager], by simp [hnoEager], by simp [hfirst], ?_,
        fun _ _ => Or.inr (by simp [hfirst]), by simp⟩
      intro hi
      rw [hign] at hi
      cases hi
    · intro b
      by_cases hzero : locateContextBit m = 0
      · simp only [hzero, Nat.lt_irrefl, if_false]
        refine h.listed_same ?_ b
        simp [Listed, hphase]
      · have hpos : 0 < locateContextBit m := Nat.pos_of_ne_zero hzero
        simp only [hpos, if_true, Local.set]
        rw [h.nodup.mem_erase_iff]
        simp [Listed, hzero]
    · by_cases hpos : 0 < locateContextBit m
      · simp only [hpos, if_true]
        exact h.nodup.erase a
      · simp only [hpos, if_false]
        exact h.nodup
    · exact h.eager_others (fun ho => absurd ho.2 (by simp [hnoEager]))
    · refine h.base.release (a := a) ⟨hphase, hb⟩ ?_
      intro b
      tauto
    · intro b hba hbw c'' id hcok'' hown hid
      rcases hown with hown | hown
      · by_cases hzero : locateContextBit m = 0
        · exact Or.inl hzero
        · right
          have hlow := (hcok''.eager hown id hid).2
          have hhigh := (hcok.base hb _ (hbits _ (locateContextBit_spec hzero).2.1)).2
          intro heq
          rw [heq] at hlow
          omega
      · exact absurd (h.base.unique b a ⟨hbw, hown⟩ ⟨hphase, hb⟩) hba
  · rw [Gcn.obtain_result, result_owning hign]
  · intro _ hzero
    refine ⟨hsub _ (locateContextBit_spec hzero).2.1, ?_⟩
    show hasBit mask' _ = false
    rw [hmask']
    simp [hzero]

include h hphase hcok hign hbits in
theorem take_nothing (hflag : flag = true → c.2 = true) (hnoEager : (l.gcn a).ownEagerMask = false)
    (hnoMask : (l.gcn a).ownMask = false) : Takes cfg p a l m flag := by
  have hok := h.gcnOk a
  have hzero : locateContextBit m = 0 := by
    by_contra hne
    have hbit := hbits _ (locateContextBit_spec hne).2.1
    rw [hcok.nothing hign hnoEager hnoMask] at hbit
    cases hbit
  have hnoFlag := flag_owning hcok hign hflag hnoMask
  simp only [Takes, take, hphase]
  rw [if_neg (by simp [hign]), if_neg (by simp [hnoEager]), if_neg (by simp [hnoMask])]
  refine ⟨_, _, rfl, ?_, ⟨rfl, rfl, by rw [hzero], rfl, by rw [if_pos (Or.inr hzero)],
    fun _ hne => absurd hzero hne⟩⟩
  refine h.update_flags rfl rfl rfl (by simp) rfl ?_ ?_ h.nodup ?_ ?_
  · refine ⟨fun hi => (nomatch hi), fun heg => absurd heg (by simp [hnoEager]), hok.eagerFirst, hok.baseLater,
      hok.ignoring, ?_, fun hx => ?_⟩
    · simp [hnoFlag]
    · rcases hx with hx | hx <;> cases hx
  · refine h.listed_same ?_
    simp [Listed, hphase]
  · exact h.eager_others (fun ho => absurd ho.2 (by simp [hnoEager]))
  · exact h.base_others (fun ho => absurd ho.2 (by simp [hnoMask]))

end Owning

theorem take_proper (h : Proper cfg p l) {c : Contribution}
    (hphase : (l.gcn a).phase = .waiting) (hc : l.sent a (l.gcn a).iter = some c)
    (hbits : ∀ id, hasBit m id = true → hasBit c.1 id = true) (hflag : flag = true → c.2 = true) :
    ∃ l' st, take cfg p a (some (m, flag)) l = .ok l' ∧ Proper cfg p l' ∧
      Taken cfg p a l m flag l' st := by
  obtain ⟨c', hc', hcok⟩ := h.sent a hphase
  obtain rfl : c' = c := Option.some.inj (hc'.symm.trans hc)
  cases hign : cfg.ignores p a with
  | true => exact take_ignoring h hphase hign
  | false =>
    cases he : (l.gcn a).ownEagerMask with
    | true => exact take_eager h hphase hcok hign hbits hflag he
    | false =>
      cases hb : (l.gcn a).ownMask with
      | true => exact take_base h hphase hcok hign hbits he hb
      | false => exact take_nothing h hphase hcok hign hbits hflag he hb

theorem mem_addGcnToList {b : AllocId} : b ∈ addGcnToList cfg a list ↔ b = a ∨ b ∈ list := by
  induction list with
  | nil => simp [addGcnToList]
  | cons c cs ih =>
    rw [addGcnToList]
    split
    · simp
    · rw [List.mem_cons, ih, List.mem_cons]
      tauto

theorem nodup_addGcnToList (h : list.Nodup) (ha : a ∉ list) : (addGcnToList cfg a list).Nodup := by
  induction list with
  | nil => simp [addGcnToList]
  | cons c cs ih =>
    rw [addGcnToList]
    split
    · exact List.nodup_cons.mpr ⟨ha, h⟩
    · rw [List.nodup_cons] at h ⊢
      rw [mem_addGcnToList]
      simp only [List.mem_cons, not_or] at ha
      refine ⟨?_, ih h.2 ha.2⟩
      rintro (hc | hc)
      · exact ha.1 hc.symm
      · exact h.1 hc

theorem Gcn.pastFirst_spec (st : Gcn) (blocking : Bool) (id : Nat) :
    (st.pastFirst blocking id).phase = st.phase ∧ (st.pastFirst blocking id).iter = st.iter ∧
      (st.pastFirst blocking id).result = st.result ∧
      (st.pastFirst blocking id).holds = st.holds ∧
      (id = 0 → (st.pastFirst blocking id).firstIter = false) := by
  unfold Gcn.pastFirst
  split
  · exact ⟨rfl, rfl, rfl, rfl, fun _ => rfl⟩
  · rename_i hcond
    exact ⟨rfl, rfl, rfl, rfl, fun hzero => absurd (Or.inr hzero) hcond⟩

theorem GcnOk.pastFirst {ign : Bool} (h : GcnOk ign st) (hidle : st.phase ≠ .idle)
    (hno : st.ownEagerMask = false) (blocking : Bool) (id : Nat) :
    GcnOk ign (st.pastFirst blocking id) := by
  have noEager : ¬ st.ownEagerMask = true := by simp [hno]
  unfold Gcn.pastFirst
  split
  · exact ⟨fun hi => absurd hi hidle, fun he => absurd he noEager, fun he => absurd he noEager,
      fun _ => rfl, h.ignoring, fun _ _ => Or.inr rfl, fun _ => Or.inr rfl⟩
  · exact h

theorem enlist_proper (h : Proper cfg p l)
    (hphase : (l.gcn a).phase = .settling id flag) : Proper cfg p (enlist cfg p a id l) := by
  have hok := h.gcnOk a
  have hno := not_own_of_phase (l.gcn a) (by rw [hphase]; simp)
  have hnoEager := hok.noEager (by rw [hphase]; simp) (by rw [hphase]; simp)
  obtain ⟨hph, _, _, hholds, hfirst'⟩ :=
    Gcn.pastFirst_spec (l.gcn a) (cfg.alloc a).blocking id
  have hok' := hok.pastFirst (by rw [hphase]; simp) hnoEager (cfg.alloc a).blocking id
  rw [hphase] at hph
  refine h.update_flags rfl rfl rfl (by rw [hph]; simp) hholds hok' ?_ ?_
    (h.eager_others hno.1) (h.base_others hno.2)
  · intro b
    simp only [enlist, Local.set]
    by_cases hadd : (l.gcn a).firstIter = true ∧ cfg.ignores p a = false ∧ id = 0
    · rw [if_pos hadd, mem_addGcnToList]
      have hlisted : Listed (cfg.ignores p a) ((l.gcn a).pastFirst (cfg.alloc a).blocking id) := by
        refine ⟨hadd.2.1, hfirst' hadd.2.2, Or.inr (Or.inr (Or.inl ⟨flag, ?_⟩))⟩
        rw [hph, hadd.2.2]
      tauto
    · rw [if_neg hadd]
      refine h.listed_same ?_ b
      unfold Listed
      rw [hph, hphase]
      constructor
      · rintro ⟨hi, _, hcase⟩
        have hzero : id = 0 := by simpa using hcase
        refine ⟨hi, ?_, hcase⟩
        by_contra hf
        exact hadd ⟨by simpa using hf, hi, hzero⟩
      · rintro ⟨hi, _, hcase⟩
        have hzero : id = 0 := by simpa using hcase
        exact ⟨hi, hfirst' hzero, hcase⟩
  · simp only [enlist, Local.set]
    split
    · rename_i hadd
      refine nodup_addGcnToList h.nodup ?_
      rw [h.listed a]
      intro hl
      rw [hl.2.1] at hadd
      cases hadd.1
    · exact h.nodup

theorem Proper.move (h : Proper cfg p l) (hold : (l.gcn a).phase ≠ .waiting)
    (hwait : st.phase ≠ .waiting) (hholds : st.holds = (l.gcn a).holds) (hok : GcnOk (cfg.ignores p a) st)
    (hlisted : Listed (cfg.ignores p a) st ↔ Listed (cfg.ignores p a) (l.gcn a)) :
    Proper cfg p (l.set a st) := by
  have hno := not_own_of_phase _ hold
  exact h.update_flags rfl rfl rfl hwait hholds hok (h.listed_same hlisted) h.nodup
    (h.eager_others hno.1) (h.base_others hno.2)

def Settled (id : Nat) (flag : Bool) (old st : Gcn) : Prop :=
  st.result = old.result ∧
    (id = 0 ∧ flag = true ∧ st.iter = old.iter ∧ (st.phase = .exhausted ∨ st.phase = .failing) ∨
      id = 0 ∧ flag = false ∧ st.iter = old.iter + 1 ∧ st.phase = .reserving ∨
      id ≠ 0 ∧ st.iter = old.iter ∧ st.phase = .done)

theorem settle_proper (h : Proper cfg p l) (hphase : (l.gcn a).phase = .settling id flag) :
    Proper cfg p (settle cfg p a l) ∧ (settle cfg p a l).sent = l.sent ∧
      ∃ st, (settle cfg p a l).gcn = Function.update l.gcn a st ∧
        Settled id flag (l.gcn a) st := by
  have hwait : (l.gcn a).phase ≠ .waiting := by
    rw [hphase]
    simp
  have hok := h.gcnOk a
  have hnoEager := hok.noEager hwait (by rw [hphase]; simp)
  simp only [settle, hphase]
  by_cases hexh : id = 0 ∧ flag = true
  · rw [if_pos hexh]
    obtain ⟨rfl, rfl⟩ := hexh
    have hlate := hok.settlingLate 0 hphase
    refine ⟨?_, rfl, _, rfl, rfl, Or.inl ⟨rfl, rfl, rfl, ?_⟩⟩
    · refine h.move hwait ?_ rfl ?_ ?_
      · split <;> simp
      · refine hok.moved hnoEager rfl rfl rfl ?_ ?_ (fun _ => hlate)
        · split <;> simp
        · split <;> simp
      · unfold Listed
        rw [hphase]
        split <;> simp
    · split <;> simp
  · rw [if_neg hexh]
    have hl := enlist_proper h hphase
    have hst := Gcn.pastFirst_spec (l.gcn a) (cfg.alloc a).blocking id
    generalize hst' : (l.gcn a).pastFirst (cfg.alloc a).blocking id = st at hst
    have hgcn : (enlist cfg p a id l).gcn = Function.update l.gcn a st := by
      rw [← hst']
      rfl
    have hself : (enlist cfg p a id l).gcn a = st := by rw [hgcn, Function.update_self]
    rw [hself]
    have hph : st.phase = .settling id flag := hst.1.trans hphase
    have hok' : GcnOk (cfg.ignores p a) st := hself ▸ hl.gcnOk a
    have hwait' : ((enlist cfg p a id l).gcn a).phase ≠ .waiting := by
      rw [hself, hph]
      simp
    have hnoEager' := hok'.noEager (by rw [hph]; simp) (by rw [hph]; simp)
    have hupd : ∀ st', Function.update (enlist cfg p a id l).gcn a st' =
        Function.update l.gcn a st' := by
      intro st'
      rw [hgcn, Function.update_idem]
    by_cases hzero : id = 0
    · rw [if_pos hzero]
      subst hzero
      have hflag : flag = false := by simpa using hexh
      refine ⟨?_, rfl, _, hupd _, hst.2.2.1, Or.inr (Or.inl ⟨rfl, hflag, ?_, rfl⟩)⟩
      · refine hl.move hwait' (by simp) (by rw [hself]) ?_ ?_
        · exact hok'.moved hnoEager' rfl rfl rfl (by simp) (by simp) (by simp)
        · rw [hself]
          simp [Listed, hph]
      · show st.iter + 1 = _
        rw [hst.2.1]
    · rw [if_neg hzero]
      refine ⟨?_, rfl, _, hupd _, hst.2.2.1, Or.inr (Or.inr ⟨hzero, hst.2.1, rfl⟩)⟩
      refine hl.move hwait' (by simp) (by rw [hself]) ?_ ?_
      · exact hok'.moved hnoEager' rfl rfl rfl (by simp) (by simp) (by simp)
      · rw [hself]
        simp [Listed, hph, hzero]

theorem release_proper (h : Proper cfg p l)
    (hclear : (l.gcn a).phase = .exhausted → (l.gcn a).ownMask = true → ∀ b, ¬ OwnsBase (l.gcn b)) :
    Proper cfg p (release a l) := by
  unfold release
  by_cases hphase : (l.gcn a).phase = .exhausted
  · have hwait : (l.gcn a).phase ≠ .waiting := by
      rw [hphase]
      simp
    have hok := h.gcnOk a
    have hno := not_own_of_phase _ hwait
    have hnoEager := hok.noEager hwait (by rw [hphase]; simp)
    simp only [hphase, if_true]
    refine h.update_flags rfl rfl rfl (by simp) rfl ?_ (h.listed_same ?_) h.nodup
      (h.eager_others hno.1) ?_
    · exact hok.moved hnoEager rfl rfl rfl (by simp) (by simp)
        (fun _ => hok.exhaustedLate (Or.inl hphase))
    · simp [Listed, hphase]
    · by_cases hmask : (l.gcn a).ownMask = true
      · simp only [hmask, if_true]
        exact Guarded.free (fun b hb => hclear hphase hmask b hb.2)
      · simp only [hmask]
        exact h.base_others hno.2
  · simp only [hphase, if_false]
    exact h

theorem fnFail_proper (h : Proper cfg p l)
    (hlist : a ∈ l.nextGcn ↔ (l.gcn a).firstIter = false ∧ cfg.ignores p a = false)
    (heager : ¬ OwnsEager (l.gcn a)) (hclear : (cfg.alloc a).blocking = true → (l.gcn a).ownMask = true →
      (l.gcn a).phase ≠ .waiting → ∀ b, ¬ OwnsBase (l.gcn b))
    (hblock : (l.gcn a).phase = .waiting → (cfg.alloc a).blocking = true) :
    ∃ l', fnFail cfg p a l = .ok l' ∧ Proper cfg p l' ∧ l'.sent = l.sent ∧
      l'.gcn = Function.update l.gcn a { l.gcn a with phase := .failed } := by
  have hok := h.gcnOk a
  have hres : ∃ list, unlistIf ((l.gcn a).firstIter = false ∧ cfg.ignores p a = false) a
      l.nextGcn = .ok list ∧ list.Nodup ∧ ∀ b, b ∈ list ↔ b ≠ a ∧ b ∈ l.nextGcn := by
    by_cases hin : a ∈ l.nextGcn
    · have hcond := hlist.mp hin
      refine ⟨l.nextGcn.erase a, ?_, h.nodup.erase a, fun b => h.nodup.mem_erase_iff⟩
      rw [unlistIf_of_mem hin, if_pos hcond]
    · refine ⟨l.nextGcn, ?_, h.nodup, ?_⟩
      · unfold unlistIf
        rw [if_neg (fun hcond => hin (hlist.mpr hcond))]
      · intro b
        constructor
        · intro hb
          refine ⟨?_, hb⟩
          rintro rfl
          exact hin hb
        · exact And.right
  obtain ⟨list, hunlist, hnodup, hmem⟩ := hres
  refine ⟨{ l.set a { l.gcn a with phase := .failed } with
    maskInUse := if (cfg.alloc a).blocking && (l.gcn a).ownMask then false else l.maskInUse
    nextGcn := list }, by simp only [fnFail, hunlist]; rfl, ?_, rfl, rfl⟩
  · refine h.update_flags rfl rfl rfl (by simp) rfl ?_ ?_ hnodup (h.eager_others heager) ?_
    · exact ⟨fun hi => (nomatch hi), fun _ => Or.inr rfl, hok.eagerFirst, hok.baseLater,
        hok.ignoring, fun _ hs => (nomatch hs), fun hx => by rcases hx with hx | hx <;> cases hx⟩
    · intro b
      show b ∈ list ↔ _
      rw [hmem b]
      simp [Listed]
    · by_cases hmask : ((cfg.alloc a).blocking && (l.gcn a).ownMask) = true
      · simp only [hmask, if_true]
        rw [Bool.and_eq_true] at hmask
        by_cases hwait : (l.gcn a).phase = .waiting
        · refine h.base.release (a := a) ⟨hwait, hmask.2⟩ ?_
          intro b
          tauto
        · exact Guarded.free (fun b hb => hclear hmask.1 hmask.2 hwait b hb.2)
      · simp only [hmask]
        refine h.base_others ?_
        intro ho
        exact hmask (by rw [hblock ho.1, ho.2]; rfl)

theorem free_proper (h : Proper cfg p l) :
    ∃ l', free a l = .ok l' ∧ Proper cfg p l' ∧ l'.sent = l.sent ∧
      ∃ st, l'.gcn = Function.update l.gcn a st ∧ st.phase = (l.gcn a).phase ∧
        st.iter = (l.gcn a).iter ∧ st.result = (l.gcn a).result := by
  have hsame : Function.update l.gcn a (l.gcn a) = l.gcn := Function.update_eq_self a l.gcn
  unfold free
  simp only
  split
  · rename_i id hphase hheld
    obtain ⟨halloc, hused⟩ := h.held a id hheld
    obtain ⟨mask', hfree, hmask'⟩ := freeContextid_spec halloc hused
    have hok := h.gcnOk a
    have hwait : (l.gcn a).phase ≠ .waiting := by
      rw [hphase]
      simp
    have hno := not_own_of_phase _ hwait
    have hmono : ∀ x, hasBit l.mask x = true → hasBit mask' x = true := by
      intro x hx
      rw [hmask' x, hx]
      rfl
    rw [hfree]
    refine ⟨_, rfl, ?_, rfl, _, rfl, rfl, rfl, rfl⟩
    refine h.update rfl ⟨hok.idleFirst, hok.eagerWaits, hok.eagerFirst, hok.baseLater,
      hok.ignoring, hok.settlingLate, hok.exhaustedLate⟩ (h.listed_same Iff.rfl) h.nodup
      ((h.eager_others hno.1).congr ?_) ((h.base_others hno.2).congr ?_)
      (fun hw => absurd hw hwait) ?_ ?_ ?_
    · intro b
      have hne : ¬ OwnsEager { l.gcn a with holds := none } := fun ho => hwait ho.1
      tauto
    · intro b
      have hne : ¬ OwnsBase { l.gcn a with holds := none } := fun ho => hwait ho.1
      tauto
    · intro b _ _ c hc
      refine ⟨hc, ?_⟩
      intro hcok
      refine ⟨?_, ?_, hcok.nothing, hcok.flag⟩
      · intro he x hx
        exact ⟨hmono x (hcok.eager he x hx).1, (hcok.eager he x hx).2⟩
      · intro hb x hx
        exact ⟨hmono x (hcok.base hb x hx).1, (hcok.base hb x hx).2⟩
    · intro x hx
      cases hx
    · intro b x hba hb
      have hne : prefixField x ≠ prefixField id := by
        intro heq
        have hxid := (h.held b x hb).1.prefixField_inj halloc heq
        subst hxid
        exact hba (h.heldOnce b a x hb hheld)
      show hasBit mask' x = false
      rw [hmask' x, (h.held b x hb).2]
      simp [hne]
  · exact ⟨l, rfl, h, rfl, l.gcn a, hsame.symm, rfl, rfl, rfl⟩

end Steps

end FgMpi.ContextId.Exclusion
