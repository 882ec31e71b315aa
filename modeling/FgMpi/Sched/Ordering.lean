import FgMpi.Sched.Schedule

namespace FgMpi.Sched.Ordering
open Machine.Checked Tag
open Sched.Schedule

def isPointToPoint : Kind → Bool
  | .send _ _ | .recv => true
  | _ => false

structure Core (s : State) : Prop where
  idx_le : s.idx ≤ s.numEntries
  finished : ∀ k < s.idx, (s.status k).finished
  in_order : ∀ i j, i < j → j < s.numEntries → s.status j ≠ .notStarted → s.status i ≠ .notStarted
  barrier : ∀ i j, i < j → j < s.numEntries → s.isBarrier i → s.status j ≠ .notStarted →
    ∀ k ≤ i, (s.status k).finished
  kind : ∀ j < s.numEntries, (s.entries j).kind ≠ .nop
  sub : ∀ j < s.numEntries,
    ((s.entries j).sub ≠ .null ↔ s.status j = .started) ∧
      (s.status j = .started → isPointToPoint (s.entries j).kind)

variable {s s' : State} {i : Nat}

theorem Core.sub_null (h : Core s) (hi : i < s.numEntries)
    (hns : s.status i = .notStarted) : (s.entries i).sub = .null := by
  by_contra hne
  have hst := (h.sub i hi).1.mp hne
  rw [hns] at hst
  cases hst

variable {st : Status}

theorem not_finished_of_notStarted (h : st.finished) : st ≠ .notStarted := by
  rintro rfl
  cases h

theorem finished_iff (st : Status) : st.finished = false ↔ st = .notStarted ∨ st = .started := by
  cases st <;> simp [Status.finished]

/-- `s'` is `s` after builder calls: old entries keep everything but, the last of them, its
barrier flag, and new entries are not started. -/
structure Extended (s s' : State) : Prop where
  num_le : s.numEntries ≤ s'.numEntries
  old : ∀ k < s.numEntries, (s'.entries k).kind = (s.entries k).kind ∧
    s'.status k = s.status k ∧ (s'.entries k).sub = (s.entries k).sub
  flag : ∀ k, k + 1 < s.numEntries → s'.isBarrier k = s.isBarrier k
  fresh : ∀ k, s.numEntries ≤ k → k < s'.numEntries → s'.status k = .notStarted ∧
    (s'.entries k).sub = .null ∧ (s'.entries k).kind ≠ .nop
  idx : s'.idx = s.idx
  errflag : s'.errflag = s.errflag
  queued : s'.queued = s.queued
  completions : s'.completions = s.completions
  pc : s'.pc = s.pc

theorem Extended.refl (s : State) : Extended s s where
  num_le := le_refl _
  old _ _ := ⟨rfl, rfl, rfl⟩
  flag _ _ := rfl
  fresh k h h' := absurd h' (by omega)
  idx := rfl
  errflag := rfl
  queued := rfl
  completions := rfl
  pc := rfl

theorem Extended.trans {s'' : State} (h : Extended s s') (h' : Extended s' s'') : Extended s s'' where
  num_le := le_trans h.num_le h'.num_le
  old k hk := by
    obtain ⟨h1, h2, h3⟩ := h.old k hk
    obtain ⟨h1', h2', h3'⟩ := h'.old k (lt_of_lt_of_le hk h.num_le)
    exact ⟨h1'.trans h1, h2'.trans h2, h3'.trans h3⟩
  flag k hk := (h'.flag k (lt_of_lt_of_le hk h.num_le)).trans (h.flag k hk)
  fresh k hk hk' := by
    by_cases hin : k < s'.numEntries
    · obtain ⟨h1, h2, h3⟩ := h.fresh k hk hin
      obtain ⟨h1', h2', h3'⟩ := h'.old k hin
      exact ⟨h2'.trans h1, h3'.trans h2, by rw [h1']; exact h3⟩
    · exact h'.fresh k (by omega) hk'
  idx := h'.idx.trans h.idx
  errflag := h'.errflag.trans h.errflag
  queued := h'.queued.trans h.queued
  completions := h'.completions.trans h.completions
  pc := h'.pc.trans h.pc

theorem addEntry_extended (kind : Kind) (hkind : kind ≠ .nop) (s : State) : Extended s (addEntry kind s) := by
  have hold : ∀ k, k ≠ s.numEntries → (addEntry kind s).entries k = s.entries k := by
    intro k hk
    exact Function.update_of_ne hk _ _
  have hnew : (addEntry kind s).entries s.numEntries = ⟨kind, .notStarted, false, .null⟩ :=
    Function.update_self _ _ _
  refine ⟨Nat.le_succ _, ?_, ?_, ?_, rfl, rfl, rfl, rfl, rfl⟩
  · intro k hk
    simp only [State.status, hold k (by omega), and_self]
  · intro k hk
    simp only [State.isBarrier, hold k (by omega)]
  · intro k hk hk'
    have hkn : k = s.numEntries := by
      simp only [addEntry] at hk'
      omega
    subst hkn
    simp only [State.status, hnew]
    exact ⟨trivial, trivial, hkind⟩

theorem schedBarrier_extended (s : State) : Extended s (schedBarrier s) := by
  unfold schedBarrier
  split
  · rename_i hpos
    refine ⟨le_refl _, ?_, ?_, ?_, rfl, rfl, rfl, rfl, rfl⟩
    · intro k _
      by_cases hk : k = s.numEntries - 1
      · subst hk
        simp [State.status]
      · simp [State.status, hk]
    · intro k hk
      have hne : k ≠ s.numEntries - 1 := by omega
      simp [State.isBarrier, hne]
    · intro k hk hk'
      exact absurd hk' (by simp only; omega)
  · exact Extended.refl s

theorem build_extended (b : Build) (s : State) : Extended s (build b s) := by
  cases b with
  | barrier => exact schedBarrier_extended s
  | _ => exact addEntry_extended _ (by decide) s

theorem buildAll_extended (bs : List Build) (s : State) : Extended s (buildAll bs s) := by
  induction bs generalizing s with
  | nil => exact Extended.refl s
  | cons b bs ih => exact (build_extended b s).trans (ih (build b s))

theorem Core.extended (h : Core s) (hx : Extended s s') : Core s' := by
  have hnum := hx.num_le
  have hidx := h.idx_le
  have hin : ∀ j < s'.numEntries, s'.status j ≠ .notStarted → j < s.numEntries := by
    intro j hj hst
    by_contra hge
    exact hst (hx.fresh j (by omega) hj).1
  refine ⟨by rw [hx.idx]; omega, ?_, ?_, ?_, ?_, ?_⟩
  · intro k hk
    rw [hx.idx] at hk
    rw [(hx.old k (by omega)).2.1]
    exact h.finished k hk
  · intro i j hij hj hst
    have hjs := hin j hj hst
    rw [(hx.old j hjs).2.1] at hst
    rw [(hx.old i (by omega)).2.1]
    exact h.in_order i j hij hjs hst
  · intro i j hij hj hbar hst k hk
    have hjs := hin j hj hst
    rw [(hx.old j hjs).2.1] at hst
    rw [hx.flag i (by omega)] at hbar
    rw [(hx.old k (by omega)).2.1]
    exact h.barrier i j hij hjs hbar hst k hk
  · intro j hj
    by_cases hjs : j < s.numEntries
    · rw [(hx.old j hjs).1]
      exact h.kind j hjs
    · exact (hx.fresh j (by omega) hj).2.2
  · intro j hj
    by_cases hjs : j < s.numEntries
    · obtain ⟨h1, h2, h3⟩ := hx.old j hjs
      rw [h1, h2, h3]
      exact h.sub j hjs
    · obtain ⟨h1, h2, _⟩ := hx.fresh j (by omega) hj
      rw [h1, h2]
      exact ⟨by simp, fun hc => by cases hc⟩

structure Launch (kind : Kind) (st : Status) (sub : SubReq) : Prop where
  left : st ≠ .notStarted
  posted : sub = .posted ∧ st = .started ∧ isPointToPoint kind ∨
    sub = .null ∧ st.finished

/-- Everything `MPIDU_Sched_start_entry` can do. -/
theorem startEntry_cases {o : Outcome} {err : Bool}
    (hkind : (s.entries i).kind ≠ .nop) (hi : i < s.numEntries)
    (hsub : (s.entries i).sub = .null) (h : startEntry s i o = .ok (s', err)) :
    s.status i = .notStarted ∧ (err = true → o = .localFailed) ∧
      ∃ s₀ st sub flag, Extended s s₀ ∧ Launch (s.entries i).kind st sub ∧
        s' = settle s₀ i st sub flag := by
  unfold startEntry at h
  rw [require_bind_eq_ok] at h
  obtain ⟨hstatus, h⟩ := h
  refine ⟨hstatus, ?_⟩
  -- an operation that is over at once leaves no sub-request behind
  have hover : ∀ st flag, st.finished → ∃ s₀ st' sub flag', Extended s s₀ ∧
      Launch (s.entries i).kind st' sub ∧
      settle s i st (s.entries i).sub flag = settle s₀ i st' sub flag' := by
    intro st flag hst
    exact ⟨s, st, _, flag, Extended.refl s, ⟨not_finished_of_notStarted hst, Or.inr ⟨hsub, hst⟩⟩, rfl⟩
  have hposted : isPointToPoint (s.entries i).kind → ∃ s₀ st sub flag, Extended s s₀ ∧
      Launch (s.entries i).kind st sub ∧
      settle s i .started .posted s.errflag = settle s₀ i st sub flag := by
    intro hp
    exact ⟨s, _, _, _, Extended.refl s, ⟨by simp, Or.inl ⟨rfl, rfl, hp⟩⟩, rfl⟩
  split at h
  · rename_i hk
    simp only [Except.ok.injEq, Prod.mk.injEq] at h
    obtain ⟨rfl, rfl⟩ := h
    exact ⟨by simp, hposted (by rw [hk]; rfl)⟩
  · rename_i hk
    simp only [Except.ok.injEq, Prod.mk.injEq] at h
    obtain ⟨rfl, rfl⟩ := h
    exact ⟨by simp, hposted (by rw [hk]; rfl)⟩
  · split at h
    · cases h
    · simp only [Except.ok.injEq, Prod.mk.injEq] at h
      obtain ⟨rfl, rfl⟩ := h
      exact ⟨by simp, hover _ _ rfl⟩
  · split at h
    · cases h
    · simp only [Except.ok.injEq, Prod.mk.injEq] at h
      obtain ⟨rfl, rfl⟩ := h
      exact ⟨by simp, hover _ _ rfl⟩
  · simp only [Except.ok.injEq, Prod.mk.injEq] at h
    obtain ⟨rfl, rfl⟩ := h
    exact ⟨by simp, hover _ _ rfl⟩
  · simp only [Except.ok.injEq, Prod.mk.injEq] at h
    obtain ⟨rfl, rfl⟩ := h
    exact ⟨by simp, hover _ _ rfl⟩
  · simp only [Except.ok.injEq, Prod.mk.injEq] at h
    obtain ⟨rfl, rfl⟩ := h
    exact ⟨by simp, hover _ _ rfl⟩
  · simp only [Except.ok.injEq, Prod.mk.injEq] at h
    obtain ⟨rfl, rfl⟩ := h
    exact ⟨by simp, hover _ _ rfl⟩
  · rename_i hk
    exact absurd hk hkind
  · rename_i bs ret hk
    simp only [Except.ok.injEq, Prod.mk.injEq] at h
    obtain ⟨rfl, rfl⟩ := h
    have hx := buildAll_extended bs s
    have hsub' : ((buildAll bs s).entries i).sub = .null := by
      rw [(hx.old i hi).2.2, hsub]
    exact ⟨by simp, buildAll bs s, .complete, _, _, hx,
      ⟨by simp, Or.inr ⟨hsub', rfl⟩⟩, rfl⟩
  · cases h

section Settle
variable (s : State) (i : Nat) (st : Status) (sub : SubReq) (flag : Errflag)

theorem settle_status_self : (settle s i st sub flag).status i = st := by
  simp [settle, State.status]

theorem settle_status_other {k : Nat} (h : k ≠ i) : (settle s i st sub flag).status k = s.status k := by
  simp [settle, State.status, h]

@[simp] theorem settle_isBarrier (k : Nat) : (settle s i st sub flag).isBarrier k = s.isBarrier k := by
  by_cases h : k = i
  · subst h; simp [settle, State.isBarrier]
  · simp [settle, State.isBarrier, h]

@[simp] theorem settle_kind (k : Nat) : ((settle s i st sub flag).entries k).kind = (s.entries k).kind := by
  by_cases h : k = i
  · subst h; simp [settle]
  · simp [settle, h]

theorem settle_sub_self : ((settle s i st sub flag).entries i).sub = sub := by
  simp [settle]

theorem settle_sub_other {k : Nat} (h : k ≠ i) :
    ((settle s i st sub flag).entries k).sub = (s.entries k).sub := by
  simp [settle, h]

@[simp] theorem settle_idx : (settle s i st sub flag).idx = s.idx := rfl

@[simp] theorem settle_numEntries : (settle s i st sub flag).numEntries = s.numEntries := rfl

end Settle

theorem settle_status_same (s : State) (i : Nat) (sub : SubReq) (flag : Errflag) (k : Nat) :
    (settle s i (s.status i) sub flag).status k = s.status k := by
  by_cases h : k = i
  · subst h
    exact settle_status_self _ _ _ _ _
  · exact settle_status_other _ _ _ _ _ h

/-- What the loop of `MPIDU_Sched_continue` knows at position `i`. -/
structure LoopInv (s : State) (i : Nat) (caller : Option Nat) : Prop where
  idx_le : s.idx ≤ i
  le_num : i ≤ s.numEntries
  started : ∀ k < i, s.status k ≠ .notStarted
  passed : ∀ b < i, s.isBarrier b → ∀ k ≤ b, (s.status k).finished
  caller_lt : ∀ p, caller = some p → p < s.idx

theorem Core.settled {sub : SubReq} (h : Core s) (hi : i < s.numEntries) (hst : s.status i = .started)
    (hnew : sub = .null ∧ st.finished ∨ sub ≠ .null ∧ st = .started) (flag : Errflag) :
    Core (settle s i st sub flag) := by
  have hkeep : ∀ k, (s.status k).finished → ((settle s i st sub flag).status k).finished := by
    intro k hk
    by_cases hki : k = i
    · subst hki
      rw [hst] at hk
      cases hk
    · rw [settle_status_other _ _ _ _ _ hki]
      exact hk
  have hstarted : ∀ k, (settle s i st sub flag).status k ≠ .notStarted ↔
      s.status k ≠ .notStarted := by
    intro k
    by_cases hki : k = i
    · subst hki
      rw [settle_status_self, hst]
      rcases hnew with ⟨_, hfin⟩ | ⟨_, rfl⟩
      · exact iff_of_true (not_finished_of_notStarted hfin) (by simp)
      · rfl
    · rw [settle_status_other _ _ _ _ _ hki]
  refine ⟨h.idx_le, fun k hk => hkeep k (h.finished k hk), ?_, ?_, ?_, ?_⟩
  · intro a j haj hj hstj
    rw [hstarted] at hstj ⊢
    exact h.in_order a j haj hj hstj
  · intro b j hbj hj hbb hstj k hk
    rw [hstarted] at hstj
    rw [settle_isBarrier] at hbb
    exact hkeep k (h.barrier b j hbj hj hbb hstj k hk)
  · intro j hj
    rw [settle_kind]
    exact h.kind j hj
  · intro j hj
    rw [settle_kind]
    by_cases hji : j = i
    · subst hji
      rw [settle_status_self, settle_sub_self]
      refine ⟨?_, fun _ => (h.sub j hi).2 hst⟩
      rcases hnew with ⟨rfl, hfin⟩ | ⟨hne, rfl⟩
      · refine iff_of_false (by simp) ?_
        rintro rfl
        cases hfin
      · exact iff_of_true hne rfl
    · rw [settle_status_other _ _ _ _ _ hji, settle_sub_other _ _ _ _ _ hji]
      exact h.sub j hj

variable {caller : Option Nat}

theorem Core.launch {s₀ : State} {sub : SubReq} (h : Core s) (hl : LoopInv s i caller) (hi : i < s.numEntries)
    (hns : s.status i = .notStarted) (hx : Extended s s₀)
    (hlaunch : Launch (s.entries i).kind st sub) (flag : Errflag) :
    Core (settle s₀ i st sub flag) ∧ (∀ k < i + 1, (settle s₀ i st sub flag).status k ≠ .notStarted) ∧
      ∀ b < i, (settle s₀ i st sub flag).isBarrier b →
        ∀ k ≤ b, ((settle s₀ i st sub flag).status k).finished := by
  have h₀ := h.extended hx
  have hidx := hl.idx_le
  have hnum := hx.num_le
  have hst : ∀ k, k ≠ i → (settle s₀ i st sub flag).status k = s₀.status k :=
    fun k hk => settle_status_other _ _ _ _ _ hk
  have hns₀ : s₀.status i = .notStarted := (hx.old i hi).2.1.trans hns
  have hbefore : ∀ k < i, s₀.status k ≠ .notStarted := by
    intro k hk
    rw [(hx.old k (by omega)).2.1]
    exact hl.started k hk
  -- nothing behind the entry is started yet
  have hfront : ∀ j < s₀.numEntries, j ≠ i → s₀.status j ≠ .notStarted → j < i := by
    intro j hj hji hstj
    by_contra hge
    exact h₀.in_order i j (by omega) hj hstj hns₀
  have hpassed : ∀ b < i, s₀.isBarrier b → ∀ k ≤ b, (s₀.status k).finished := by
    intro b hb hbb k hk
    rw [hx.flag b (by omega)] at hbb
    rw [(hx.old k (by omega)).2.1]
    exact hl.passed b hb hbb k hk
  refine ⟨⟨h₀.idx_le, ?_, ?_, ?_, ?_, ?_⟩, ?_, ?_⟩
  · intro k hk
    have hk' : k < s.idx := hx.idx ▸ hk
    rw [hst k (by omega)]
    exact h₀.finished k hk
  · intro a j haj hj hstj
    by_cases hai : a = i
    · rw [hai, settle_status_self]
      exact hlaunch.left
    · rw [hst a hai]
      by_cases hji : j = i
      · exact hbefore a (by omega)
      · rw [hst j hji] at hstj
        exact h₀.in_order a j haj hj hstj
  · intro b j hbj hj hbb hstj k hk
    rw [settle_isBarrier] at hbb
    by_cases hji : j = i
    · rw [hst k (by omega)]
      exact hpassed b (by omega) hbb k hk
    · rw [hst j hji] at hstj
      have hjlt := hfront j hj hji hstj
      rw [hst k (by omega)]
      exact h₀.barrier b j hbj hj hbb hstj k hk
  · intro j hj
    rw [settle_kind]
    exact h₀.kind j hj
  · intro j hj
    rw [settle_kind]
    by_cases hji : j = i
    · subst hji
      rw [settle_status_self, settle_sub_self, (hx.old j hi).1]
      rcases hlaunch.posted with ⟨rfl, rfl, hp⟩ | ⟨rfl, hfin⟩
      · exact ⟨by simp, fun _ => hp⟩
      · refine ⟨iff_of_false (by simp) ?_, ?_⟩
        · rintro rfl
          cases hfin
        · rintro rfl
          cases hfin
    · rw [hst j hji, settle_sub_other _ _ _ _ _ hji]
      exact h₀.sub j hj
  · intro k hk
    by_cases hki : k = i
    · rw [hki, settle_status_self]
      exact hlaunch.left
    · rw [hst k hki]
      exact hbefore k (by omega)
  · intro b hb hbb k hk
    rw [settle_isBarrier] at hbb
    rw [hst k (by omega)]
    exact hpassed b hb hbb k hk

def PcInv (s : State) : Prop :=
  match s.pc with
  | .building => s.idx = 0 ∧ s.queued = false ∧ s.completions = 0 ∧
      ∀ k < s.numEntries, s.status k = .notStarted
  | .continuing i caller => LoopInv s i caller ∧ s.completions = 0 ∧ s.queued = caller.isSome
  | .idle => s.queued = true ∧ s.completions = 0
  | .visiting _ => s.queued = true ∧ s.completions = 0
  | .freed => s.idx = s.numEntries ∧ s.queued = false ∧ s.completions = 1
  | .abandoned => s.queued = false ∧ s.completions = 0

structure Inv (s : State) : Prop where
  core : Core s
  pc : PcInv s

theorem init_inv : Inv State.init where
  core := by constructor <;> simp [State.init]
  pc := ⟨rfl, rfl, rfl, by simp [State.init]⟩

section
variable (h : Core s)
include h

theorem Core.congr (he : s'.entries = s.entries)
    (hn : s'.numEntries = s.numEntries) (hi : s'.idx = s.idx) : Core s' := by
  have hs : s'.status = s.status := by
    funext k
    simp only [State.status, he]
  have hb : s'.isBarrier = s.isBarrier := by
    funext k
    simp only [State.isBarrier, he]
  constructor
  · rw [hi, hn]; exact h.idx_le
  · rw [hi, hs]; exact h.finished
  · rw [hn, hs]; exact h.in_order
  · rw [hn, hs, hb]; exact h.barrier
  · rw [hn, he]; exact h.kind
  · rw [hn, hs, he]; exact h.sub

theorem Core.advance (hlt : s.idx < s.numEntries)
    (hfin : (s.status s.idx).finished) : Core { s with idx := s.idx + 1 } := by
  refine ⟨hlt, ?_, h.in_order, h.barrier, h.kind, h.sub⟩
  intro k hk
  by_cases hki : k = s.idx
  · subst hki
    exact hfin
  · have hk' : k < s.idx := by
      simp only at hk
      omega
    exact h.finished k hk'

theorem leaveContinue_inv
    (hc : s.completions = 0) (hq : s.queued = caller.isSome) (failed : Bool) :
    Inv (leaveContinue s caller failed) := by
  have hcore : Core (leaveContinue s caller failed) := by
    cases caller <;> cases failed <;> exact h.congr rfl rfl rfl
  refine ⟨hcore, ?_⟩
  cases caller <;> cases failed <;> simp_all [leaveContinue, PcInv]

theorem afterStart_inv
    (hc : s.completions = 0) (hq : s.queued = caller.isSome) (hi : i < s.numEntries)
    (hidx : s.idx ≤ i) (hst : ∀ k < i + 1, s.status k ≠ .notStarted)
    (hpass : ∀ b < i, s.isBarrier b → ∀ k ≤ b, (s.status k).finished)
    (hcall : ∀ p, caller = some p → p < s.idx) : Inv (afterStart s i caller) := by
  -- the state after `idx` was moved on, or not
  obtain ⟨s₁, hs₁, h₁, he, hn, hidx₁, hle₁, hc₁, hq₁⟩ : ∃ s₁ : State,
      s₁ = (if i = s.idx ∧ (s.status i).finished then { s with idx := s.idx + 1 } else s) ∧
      Core s₁ ∧ s₁.entries = s.entries ∧ s₁.numEntries = s.numEntries ∧ s₁.idx ≤ i + 1 ∧
      s.idx ≤ s₁.idx ∧ s₁.completions = s.completions ∧ s₁.queued = s.queued := by
    split
    · rename_i hfin
      obtain ⟨hii, hfin⟩ := hfin
      rw [hii] at hfin
      exact ⟨_, rfl, h.advance (by omega) hfin, rfl, rfl, by simp only; omega, Nat.le_succ _, rfl, rfl⟩
    · exact ⟨s, rfl, h, rfl, rfl, by omega, le_refl _, rfl, rfl⟩
  have hstat : s₁.status = s.status := by
    funext k
    simp only [State.status, he]
  have hbar : s₁.isBarrier = s.isBarrier := by
    funext k
    simp only [State.isBarrier, he]
  unfold afterStart
  simp only
  rw [← hs₁]
  split
  · exact leaveContinue_inv h₁ (by omega) (hq₁.trans hq) false
  · rename_i hgo
    refine ⟨h₁.congr rfl rfl rfl, ⟨⟨hidx₁, by simp only; omega, ?_, ?_, ?_⟩, ?_, ?_⟩⟩
    · intro k hk
      change s₁.status k ≠ _
      rw [hstat]
      exact hst k hk
    · intro b hb hbb k hk
      change (s₁.status k).finished
      change s₁.isBarrier b = true at hbb
      by_cases hbi : b = i
      · -- the barrier was passed, so `idx` is right behind it
        subst hbi
        simp only [hbb, true_and, not_or, not_not] at hgo
        exact h₁.finished k (by omega)
      · rw [hstat]
        rw [hbar] at hbb
        exact hpass b (by omega) hbb k hk
    · intro p hp
      have := hcall p hp
      simp only
      omega
    · simp only
      omega
    · exact hq₁.trans hq

theorem continueStep_inv {o : Outcome} (hl : LoopInv s i caller) (hc : s.completions = 0)
    (hq : s.queued = caller.isSome) (hok : continueStep s i caller o = .ok s') : Inv s' := by
  unfold continueStep at hok
  split at hok
  · rename_i hi
    split at hok
    · rename_i hns
      rw [bind_eq_ok] at hok
      obtain ⟨⟨s₁, err⟩, hstart, hok⟩ := hok
      have hsub := h.sub_null hi hns
      obtain ⟨_, _, s₀, st, sub, flag, hx, hlaunch, rfl⟩ := startEntry_cases (h.kind i hi) hi hsub hstart
      obtain ⟨hcore, hst, hpass⟩ := h.launch hl hi hns hx hlaunch flag
      have hc₀ : (settle s₀ i st sub flag).completions = 0 := hx.completions.trans hc
      have hq₀ : (settle s₀ i st sub flag).queued = caller.isSome := hx.queued.trans hq
      split at hok
      · simp only [Except.ok.injEq] at hok
        subst hok
        exact leaveContinue_inv hcore hc₀ hq₀ true
      · simp only [Except.ok.injEq] at hok
        subst hok
        have hnum := hx.num_le
        refine afterStart_inv hcore hc₀ hq₀ ?_ ?_ hst hpass ?_
        · simp only [settle_numEntries]
          omega
        · simp only [settle_idx, hx.idx]
          exact hl.idx_le
        · intro p hp
          simp only [settle_idx, hx.idx]
          exact hl.caller_lt p hp
    · rename_i hns
      simp only [Except.ok.injEq] at hok
      subst hok
      refine afterStart_inv h hc hq hi hl.idx_le ?_ hl.passed hl.caller_lt
      intro k hk
      by_cases hki : k = i
      · subst hki
        exact hns
      · exact hl.started k (by omega)
  · simp only [Except.ok.injEq] at hok
    subst hok
    exact leaveContinue_inv h hc hq false

theorem reap_cases (hi : i < s.numEntries) :
    (reap s i = s ∧ ∀ err, (s.entries i).sub ≠ .done err) ∨
      ∃ st flag, s.status i = .started ∧ st.finished ∧ reap s i = settle s i st .null flag := by
  have hdone : ∀ err, (s.entries i).sub = .done err → s.status i = .started := by
    intro err hsub
    exact (h.sub i hi).1.mp (by rw [hsub]; simp)
  have hfin : ∀ e : Errflag,
      (if e ≠ Errflag.none then Status.failed else Status.complete).finished := by
    intro e
    split <;> rfl
  unfold reap
  split
  · rename_i hsub
    exact Or.inr ⟨_, _, hdone _ hsub, hfin _, rfl⟩
  · rename_i hsub
    exact Or.inr ⟨_, _, hdone _ hsub, hfin _, rfl⟩
  · rename_i hsend hrecv
    refine Or.inl ⟨rfl, ?_⟩
    intro err hsub
    have hp := (h.sub i hi).2 (hdone err hsub)
    cases hk : (s.entries i).kind with
    | send a b => exact hsend a b err hk hsub
    | recv => exact hrecv err hk hsub
    | _ => rw [hk] at hp; cases hp

theorem reap_core (hi : i < s.numEntries) :
    Core (reap s i) ∧ (reap s i).idx = s.idx ∧ (reap s i).numEntries = s.numEntries ∧
      (reap s i).queued = s.queued ∧ (reap s i).completions = s.completions ∧
      (∀ k, (reap s i).isBarrier k = s.isBarrier k) ∧
      ∀ k, k ≠ i → (reap s i).status k = s.status k := by
  rcases reap_cases h hi with ⟨heq, _⟩ | ⟨st, flag, hst, hfin, heq⟩
  · rw [heq]
    exact ⟨h, rfl, rfl, rfl, rfl, fun _ => rfl, fun _ _ => rfl⟩
  · rw [heq]
    exact ⟨h.settled hi hst (Or.inl ⟨rfl, hfin⟩) flag, rfl, rfl, rfl, rfl,
      fun k => settle_isBarrier _ _ _ _ _ k, fun k hk => settle_status_other _ _ _ _ _ hk⟩

theorem leaveVisit_inv (hq : s.queued = true) (hc : s.completions = 0) : Inv (leaveVisit s) := by
  unfold leaveVisit
  split
  · rename_i hidx
    refine ⟨h.congr rfl rfl rfl, ⟨hidx, rfl, ?_⟩⟩
    simp only
    omega
  · exact ⟨h.congr rfl rfl rfl, hq, hc⟩

theorem visitStep_inv (hq : s.queued = true) (hc : s.completions = 0) : Inv (visitStep s i) := by
  unfold visitStep
  split
  · rename_i hi
    obtain ⟨hcore, hidx, hnum, hqr, hcr, _, _⟩ := reap_core h hi
    simp only
    split
    · rename_i hfin
      obtain ⟨hii, hfin⟩ := hfin
      have hfin' : ((reap s i).status (reap s i).idx).finished := by
        rw [← hii]
        exact hfin
      have hadv := hcore.advance (by omega) hfin'
      split
      · refine ⟨hadv.congr rfl rfl rfl, ⟨⟨le_refl _, hadv.idx_le, ?_, ?_, ?_⟩, ?_, ?_⟩⟩
        · intro k hk
          exact not_finished_of_notStarted (hadv.finished k hk)
        · intro b hb _ k hk
          exact hadv.finished k (by simp only at hb ⊢; omega)
        · intro p hp
          simp only [Option.some.injEq] at hp
          simp only
          omega
        · exact hcr.trans hc
        · exact hqr.trans hq
      · exact ⟨hadv.congr rfl rfl rfl, hqr.trans hq, hcr.trans hc⟩
    · split
      · exact leaveVisit_inv hcore (hqr.trans hq) (hcr.trans hc)
      · exact ⟨hcore.congr rfl rfl rfl, hqr.trans hq, hcr.trans hc⟩
  · exact leaveVisit_inv h hq hc

end

theorem step_inv {o : Op} (h : Inv s) (hok : step s o = .ok s') : Inv s' := by
  have hpc := h.pc
  cases o with
  | build b =>
    simp only [step] at hok
    split at hok
    · rename_i hb
      simp only [Except.ok.injEq] at hok
      subst hok
      have hx := build_extended b s
      simp only [PcInv, hb] at hpc
      obtain ⟨hidx, hq, hc, hns⟩ := hpc
      refine ⟨h.core.extended hx, ?_⟩
      simp only [PcInv, hx.pc, hb]
      refine ⟨hx.idx.trans hidx, hx.queued.trans hq, hx.completions.trans hc, ?_⟩
      intro k hk
      by_cases hks : k < s.numEntries
      · rw [(hx.old k hks).2.1]
        exact hns k hks
      · exact (hx.fresh k (by omega) hk).1
    · cases hok
  | start =>
    simp only [step] at hok
    split at hok
    · rename_i hb
      rw [require_bind_eq_ok] at hok
      obtain ⟨_, hok⟩ := hok
      simp only [Except.ok.injEq] at hok
      subst hok
      simp only [PcInv, hb] at hpc
      obtain ⟨hidx, hq, hc, _⟩ := hpc
      refine ⟨h.core.congr rfl rfl rfl, ⟨⟨le_refl _, h.core.idx_le, ?_, ?_, by simp⟩, hc, hq⟩⟩
      · intro k hk
        exact absurd hk (by omega)
      · intro b hb'
        exact absurd hb' (by omega)
    · cases hok
  | proceed o =>
    simp only [step] at hok
    split at hok
    · rename_i i caller hp
      simp only [PcInv, hp] at hpc
      exact continueStep_inv h.core hpc.1 hpc.2.1 hpc.2.2 hok
    · rename_i i hp
      simp only [Except.ok.injEq] at hok
      subst hok
      simp only [PcInv, hp] at hpc
      exact visitStep_inv h.core hpc.1 hpc.2
    · cases hok
  | progress =>
    simp only [step] at hok
    split at hok
    · rename_i hp
      simp only [Except.ok.injEq] at hok
      subst hok
      simp only [PcInv, hp] at hpc
      exact ⟨h.core.congr rfl rfl rfl, hpc⟩
    · cases hok
  | finishes j err =>
    simp only [step] at hok
    split at hok
    · rename_i hp
      simp only [Except.ok.injEq] at hok
      subst hok
      have hst : s.status j = .started := (h.core.sub j hp.1).1.mp (by rw [hp.2]; simp)
      have hsame := settle_status_same s j (.done err) s.errflag
      refine ⟨h.core.settled hp.1 hst (Or.inr ⟨by simp, hst⟩) _, ?_⟩
      simp only [PcInv, settle] at hpc ⊢
      split
      all_goals rename_i hp'; simp only [hp'] at hpc
      · exact ⟨hpc.1, hpc.2.1, hpc.2.2.1, fun k hk => (hsame k).trans (hpc.2.2.2 k hk)⟩
      · obtain ⟨hl, hrest⟩ := hpc
        refine ⟨⟨hl.idx_le, hl.le_num, ?_, ?_, hl.caller_lt⟩, hrest⟩
        · intro k hk
          have := hsame k
          simp only [settle] at this
          rw [this]
          exact hl.started k hk
        · intro b hb hbb k hk
          have h1 := hsame k
          have h2 := settle_isBarrier s j (s.status j) (.done err) s.errflag b
          simp only [settle] at h1 h2
          rw [h1]
          rw [h2] at hbb
          exact hl.passed b hb hbb k hk
      all_goals exact hpc
    · cases hok

@[simp] theorem leaveContinue_entries (s : State) (caller : Option Nat) (failed : Bool) :
    (leaveContinue s caller failed).entries = s.entries := by
  cases caller <;> cases failed <;> rfl

@[simp] theorem afterStart_entries (s : State) (i : Nat) (caller : Option Nat) :
    (afterStart s i caller).entries = s.entries := by
  unfold afterStart
  simp only
  split <;> split <;> simp

@[simp] theorem leaveVisit_entries (s : State) : (leaveVisit s).entries = s.entries := by
  unfold leaveVisit
  split <;> rfl

theorem visitStep_entries (s : State) (i : Nat) :
    (visitStep s i).entries = if i < s.numEntries then (reap s i).entries else s.entries := by
  unfold visitStep
  split
  · simp only
    split
    · split <;> rfl
    · split
      · simp
      · rfl
  · simp

theorem status_congr (h : s'.entries = s.entries) (j : Nat) : s'.status j = s.status j := by
  simp only [State.status, h]

theorem step_status {o : Op} (h : Inv s) (hok : step s o = .ok s') (j : Nat) (hj : j < s.numEntries) :
    s'.status j = s.status j ∨ (s.status j = .started ∧ (s'.status j).finished) ∨
      (s.status j = .notStarted ∧ s'.status j ≠ .notStarted ∧
        ∃ caller, s.pc = .continuing j caller) := by
  cases o with
  | build b =>
    simp only [step] at hok
    split at hok
    · simp only [Except.ok.injEq] at hok
      subst hok
      exact Or.inl ((build_extended b s).old j hj).2.1
    · cases hok
  | start =>
    simp only [step] at hok
    split at hok
    · rw [require_bind_eq_ok] at hok
      obtain ⟨_, hok⟩ := hok
      simp only [Except.ok.injEq] at hok
      subst hok
      exact Or.inl rfl
    · cases hok
  | proceed o =>
    simp only [step] at hok
    split at hok
    · rename_i i caller hp
      unfold continueStep at hok
      split at hok
      · rename_i hi
        split at hok
        · rename_i hns
          rw [bind_eq_ok] at hok
          obtain ⟨⟨s₁, err⟩, hstart, hok⟩ := hok
          have hsub := h.core.sub_null hi hns
          obtain ⟨_, _, s₀, st, sub, flag, hx, hlaunch, rfl⟩ :=
            startEntry_cases (h.core.kind i hi) hi hsub hstart
          have hs' : s'.entries = (settle s₀ i st sub flag).entries := by
            split at hok
            all_goals
              simp only [Except.ok.injEq] at hok
              subst hok
              simp
          rw [status_congr hs' j]
          by_cases hji : j = i
          · subst hji
            rw [settle_status_self]
            exact Or.inr (Or.inr ⟨hns, hlaunch.left, caller, hp⟩)
          · rw [settle_status_other _ _ _ _ _ hji]
            exact Or.inl (hx.old j hj).2.1
        · simp only [Except.ok.injEq] at hok
          subst hok
          exact Or.inl (status_congr (by simp) j)
      · simp only [Except.ok.injEq] at hok
        subst hok
        exact Or.inl (status_congr (by simp) j)
    · rename_i i hp
      simp only [Except.ok.injEq] at hok
      subst hok
      have hent := visitStep_entries s i
      split at hent
      · rename_i hi
        rw [status_congr hent j]
        rcases reap_cases h.core hi with ⟨heq, _⟩ | ⟨st, flag, hst, hfin, heq⟩
        · rw [heq]
          exact Or.inl rfl
        · rw [heq]
          by_cases hji : j = i
          · subst hji
            rw [settle_status_self]
            exact Or.inr (Or.inl ⟨hst, hfin⟩)
          · exact Or.inl (settle_status_other _ _ _ _ _ hji)
      · exact Or.inl (status_congr hent j)
    · cases hok
  | progress =>
    simp only [step] at hok
    split at hok
    · simp only [Except.ok.injEq] at hok
      subst hok
      exact Or.inl rfl
    · cases hok
  | finishes k err =>
    simp only [step] at hok
    split at hok
    · simp only [Except.ok.injEq] at hok
      subst hok
      exact Or.inl (settle_status_same _ _ _ _ j)
    · cases hok

theorem step_no_assert {o : Op} (h : Inv s) :
    step s o ≠ .error .startAssert ∧ step s o ≠ .error .sanityAssert := by
  have hpc := h.pc
  cases o with
  | start =>
    simp only [step]
    split
    · rename_i hb
      simp only [PcInv, hb] at hpc
      rw [require_bind, if_pos (by omega)]
      simp
    · simp
  | proceed o =>
    simp only [step]
    split
    · rename_i i caller hp
      unfold continueStep
      split
      · split
        · rename_i hns
          -- the loop calls `MPIDU_Sched_start_entry` on entries that are not started only
          have hne : ∀ f, startEntry s i o = .error f → f = .impossible := by
            intro f hf
            unfold startEntry at hf
            simp only [State.status] at hns
            rw [require_bind, if_pos hns] at hf
            split at hf
            all_goals try split at hf
            all_goals simp_all
          cases hs : startEntry s i o with
          | error f =>
            simp [bind, Except.bind, hne f hs]
          | ok r =>
            simp only [bind, Except.bind]
            split <;> simp
        · simp
      · simp
    · simp
    · simp
  | _ =>
    simp only [step]
    split <;> simp

end FgMpi.Sched.Ordering
