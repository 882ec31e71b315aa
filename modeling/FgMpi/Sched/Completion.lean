import FgMpi.Sched.Ordering

namespace FgMpi.Sched.Completion
open Machine.Runs Machine.Checked Tag
open Sched.Schedule Sched.Ordering

/-- Everything up to the first barrier from `idx` on is started. -/
def RegionStarted (s : State) : Prop :=
  ∀ k, s.idx ≤ k → k < s.numEntries → (∀ b, s.idx ≤ b → b < k → s.isBarrier b = false) →
    s.status k ≠ .notStarted

def Live (s : State) : Prop :=
  match s.pc with
  | .building | .freed => True
  | .continuing i _ => s.idx < i → (s.status s.idx).finished = false
  | .idle => RegionStarted s ∧ (s.idx < s.numEntries → (s.status s.idx).finished = false)
  | .visiting i => RegionStarted s ∧ (s.idx < i → (s.status s.idx).finished = false)
  | .abandoned => False

variable {s s' : State}

theorem RegionStarted.congr (h : RegionStarted s) (hi : s'.idx = s.idx)
    (hn : s'.numEntries = s.numEntries) (hb : ∀ k, s'.isBarrier k = s.isBarrier k)
    (hs : ∀ k, s.status k ≠ .notStarted → s'.status k ≠ .notStarted) : RegionStarted s' := by
  intro k hk hkn hbar
  refine hs k (h k (hi ▸ hk) (hn ▸ hkn) ?_)
  intro b hib hbk
  rw [← hb]
  exact hbar b (hi ▸ hib) hbk

theorem RegionStarted.done (h : RegionStarted s) (j : Nat) (err : Errflag) :
    RegionStarted (settle s j (s.status j) (.done err) s.errflag) := by
  refine h.congr rfl rfl (fun k => settle_isBarrier _ _ _ _ _ k) fun k hk => ?_
  rw [settle_status_same]
  exact hk

variable {caller : Option Nat}

/-- Leaving `MPIDU_Sched_continue` without an error: everything up to the end, or up to a
barrier that is not behind `idx`, is started. -/
theorem leaveContinue_live
    (hreg : RegionStarted s) (hfin : s.idx < s.numEntries → (s.status s.idx).finished = false)
    (hcall : ∀ p, caller = some p → p < s.idx) : Live (leaveContinue s caller false) := by
  cases caller with
  | none => exact ⟨hreg, hfin⟩
  | some p =>
    refine ⟨hreg, ?_⟩
    intro hlt
    have := hcall p rfl
    simp only [leaveContinue] at hlt
    omega

variable {i : Nat}

theorem afterStart_live
    (hidx : s.idx ≤ i) (hst : ∀ k < i + 1, s.status k ≠ .notStarted)
    (hlive : s.idx < i → (s.status s.idx).finished = false)
    (hcall : ∀ p, caller = some p → p < s.idx) : Live (afterStart s i caller) := by
  unfold afterStart
  simp only
  by_cases hmove : i = s.idx ∧ (s.status i).finished = true
  · rw [if_pos hmove]
    split
    · -- a barrier that was just counted does not stop the loop
      rename_i hbar
      rcases hbar.2 with hnf | hne
      · exact absurd hmove.2 hnf
      · exact absurd (congrArg Nat.succ hmove.1.symm) hne
    · intro hlt
      simp only at hlt
      omega
  · rw [if_neg hmove]
    have hopen : s.idx ≤ i → (s.status s.idx).finished = false := by
      intro _
      by_cases hlt : s.idx < i
      · exact hlive hlt
      · have heq : i = s.idx := by omega
        by_contra hf
        simp only [Bool.not_eq_false] at hf
        exact hmove ⟨heq, heq ▸ hf⟩
    split
    · rename_i hbar
      refine leaveContinue_live ?_ (fun _ => hopen hidx) hcall
      intro k hk _ hnobar
      have hki : k ≤ i := by
        by_contra hgt
        have := hnobar i hidx (by omega)
        rw [hbar.1] at this
        cases this
      exact hst k (by omega)
    · intro _
      exact hopen hidx

theorem continueStep_live {o : Outcome}
    (h : Core s) (hl : LoopInv s i caller) (hlive : s.idx < i → (s.status s.idx).finished = false)
    (ho : o ≠ .localFailed) (hok : continueStep s i caller o = .ok s') : Live s' := by
  unfold continueStep at hok
  split at hok
  · rename_i hi
    split at hok
    · rename_i hns
      rw [bind_eq_ok] at hok
      obtain ⟨⟨s₁, err⟩, hstart, hok⟩ := hok
      have hsub : (s.entries i).sub = .null := h.sub_null hi hns
      obtain ⟨_, herr, s₀, st, sub, flag, hx, hlaunch, rfl⟩ :=
        startEntry_cases (h.kind i hi) hi hsub hstart
      have herr : err = false := by
        by_contra hne
        simp only [Bool.not_eq_false] at hne
        exact ho (herr hne)
      subst herr
      simp only [Bool.false_eq_true, if_false, Except.ok.injEq] at hok
      subst hok
      obtain ⟨_, hst, _⟩ := h.launch hl hi hns hx hlaunch flag
      have hidx := hl.idx_le
      refine afterStart_live (by simp only [settle_idx, hx.idx]; exact hidx) hst ?_ ?_
      · intro hlt
        simp only [settle_idx, hx.idx] at hlt ⊢
        rw [settle_status_other _ _ _ _ _ (by omega), (hx.old _ (by omega)).2.1]
        exact hlive hlt
      · intro p hp
        simp only [settle_idx, hx.idx]
        exact hl.caller_lt p hp
    · rename_i hns
      simp only [Except.ok.injEq] at hok
      subst hok
      refine afterStart_live hl.idx_le ?_ hlive hl.caller_lt
      intro k hk
      by_cases hki : k = i
      · subst hki
        exact hns
      · exact hl.started k (by omega)
  · rename_i hi
    simp only [Except.ok.injEq] at hok
    subst hok
    have hnum := hl.le_num
    refine leaveContinue_live ?_ (fun hlt => hlive (by omega)) hl.caller_lt
    intro k _ hk _
    exact hl.started k (by omega)

theorem visitStep_live (h : Core s) (hreg : RegionStarted s)
    (hlive : s.idx < i → (s.status s.idx).finished = false) : Live (visitStep s i) := by
  unfold visitStep
  split
  · rename_i hi
    obtain ⟨hcore, hidx, hnum, _, _, hbar, hother⟩ := reap_core h hi
    have hkeep : ∀ k, s.status k ≠ .notStarted → (reap s i).status k ≠ .notStarted := by
      intro k hk
      rcases reap_cases h hi with ⟨heq, _⟩ | ⟨st, flag, _, hfin, heq⟩
      · rw [heq]
        exact hk
      · rw [heq]
        by_cases hki : k = i
        · subst hki
          rw [settle_status_self]
          exact not_finished_of_notStarted hfin
        · rw [settle_status_other _ _ _ _ _ hki]
          exact hk
    have hreg' : RegionStarted (reap s i) := hreg.congr hidx hnum hbar hkeep
    have hlive' : (reap s i).idx < i → ((reap s i).status (reap s i).idx).finished = false := by
      intro hlt
      rw [hidx] at hlt ⊢
      rw [hother s.idx (by omega)]
      exact hlive hlt
    simp only
    split
    · rename_i hmove
      split
      · intro hlt
        simp only at hlt
        omega
      · rename_i hnb
        refine ⟨?_, ?_⟩
        · intro k hk hkn hnobar
          refine hreg' k (by simp only at hk; omega) hkn ?_
          intro b hb hbk
          by_cases hbi : b = (reap s i).idx
          · rw [hbi, ← hmove.1]
            simpa [State.isBarrier] using hnb
          · exact hnobar b (by simp only; omega) hbk
        · intro hlt
          simp only at hlt
          omega
    · rename_i hmove
      have hopen : (reap s i).idx ≤ i →
          ((reap s i).status (reap s i).idx).finished = false := by
        intro hle
        by_cases hlt : (reap s i).idx < i
        · exact hlive' hlt
        · have heq : i = (reap s i).idx := by omega
          by_contra hf
          simp only [Bool.not_eq_false] at hf
          rw [← heq] at hf
          exact hmove ⟨heq, hf⟩
      split
      · rename_i hstop
        unfold leaveVisit
        split
        · trivial
        · refine ⟨hreg', fun _ => hopen ?_⟩
          -- the barrier the loop stops at is not finished, so `idx` is not past it
          by_contra hgt
          exact hstop.2 (hcore.finished i (by omega))
      · refine ⟨hreg', fun hlt => hopen ?_⟩
        simp only at hlt
        omega
  · rename_i hi
    unfold leaveVisit
    split
    · trivial
    · refine ⟨hreg, fun hlt => hlive ?_⟩
      simp only at hlt
      omega

theorem step_live {o : Op} (h : Inv s) (hl : Live s)
    (ho : o ≠ .proceed .localFailed) (hok : step s o = .ok s') : Live s' := by
  have hpc := h.pc
  cases o with
  | build b =>
    simp only [step] at hok
    split at hok
    · rename_i hb
      simp only [Except.ok.injEq] at hok
      subst hok
      simp only [Live, (build_extended b s).pc, hb]
    · cases hok
  | start =>
    simp only [step] at hok
    split at hok
    · rw [require_bind_eq_ok] at hok
      obtain ⟨_, hok⟩ := hok
      simp only [Except.ok.injEq] at hok
      subst hok
      intro hlt
      simp only at hlt
      omega
    · cases hok
  | proceed o =>
    simp only [step] at hok
    split at hok
    · rename_i i caller hp
      simp only [PcInv, hp] at hpc
      simp only [Live, hp] at hl
      exact continueStep_live h.core hpc.1 hl (fun he => ho (by rw [he])) hok
    · rename_i i hp
      simp only [Except.ok.injEq] at hok
      subst hok
      simp only [Live, hp] at hl
      exact visitStep_live h.core hl.1 hl.2
    · cases hok
  | progress =>
    simp only [step] at hok
    split at hok
    · rename_i hp
      simp only [Except.ok.injEq] at hok
      subst hok
      simp only [Live, hp] at hl
      refine ⟨hl.1, ?_⟩
      intro hlt
      simp only at hlt
      omega
    · cases hok
  | finishes j err =>
    simp only [step] at hok
    split at hok
    · simp only [Except.ok.injEq] at hok
      subst hok
      have hsame : ∀ k, (settle s j (s.status j) (.done err) s.errflag).status k = s.status k :=
        settle_status_same s j (.done err) s.errflag
      have hpc' : (settle s j (s.status j) (.done err) s.errflag).pc = s.pc := rfl
      simp only [Live, hpc', settle_idx, settle_numEntries, hsame] at hl ⊢
      cases hp : s.pc with
      | idle => simp only [hp] at hl; exact ⟨hl.1.done j err, hl.2⟩
      | visiting i => simp only [hp] at hl; exact ⟨hl.1.done j err, hl.2⟩
      | continuing i caller => simp only [hp] at hl; exact hl
      | building => trivial
      | freed => trivial
      | abandoned => simp only [hp] at hl
    · cases hok

def Ready (s : State) : Prop :=
  s.idx = s.numEntries ∨ (s.entries s.idx).sub ≠ .null ∧ (s.entries s.idx).sub ≠ .posted

instance (s : State) : Decidable (Ready s) := inferInstanceAs (Decidable (_ ∨ _))

def readyVisits : State → List Op → Nat
  | _, [] => 0
  | s, o :: os =>
    (if o = .progress ∧ Ready s then 1 else 0) +
      match step s o with
      | .ok s' => readyVisits s' os
      | .error _ => 0

def rank (s : State) : Nat :=
  match s.pc with
  | .freed => s.numEntries + 1
  | .visiting i => if i = s.idx ∧ Ready s then s.idx + 1 else s.idx
  | _ => s.idx

theorem idx_le_rank (h : Core s) : s.idx ≤ rank s := by
  have := h.idx_le
  unfold rank
  split
  · omega
  · split <;> omega
  · omega

theorem idx_le_rank_at (h : Core s) (pc : Pc) : s.idx ≤ rank { s with pc := pc } :=
  have hpc : Core { s with pc := pc } := h.congr rfl rfl rfl
  idx_le_rank hpc

theorem afterStart_idx (s : State) (i : Nat) (caller : Option Nat) : s.idx ≤ (afterStart s i caller).idx := by
  unfold afterStart
  simp only
  split <;> split <;> cases caller <;> simp [leaveContinue]

theorem continueStep_idx {o : Outcome}
    (h : Core s) (hok : continueStep s i caller o = .ok s') : s.idx ≤ s'.idx := by
  unfold continueStep at hok
  split at hok
  · rename_i hi
    split at hok
    · rename_i hns
      rw [bind_eq_ok] at hok
      obtain ⟨⟨s₁, err⟩, hstart, hok⟩ := hok
      obtain ⟨_, _, s₀, st, sub, flag, hx, _, rfl⟩ :=
        startEntry_cases (h.kind i hi) hi (h.sub_null hi hns) hstart
      split at hok
      · simp only [Except.ok.injEq] at hok
        subst hok
        cases caller <;> simp [leaveContinue, hx.idx]
      · simp only [Except.ok.injEq] at hok
        subst hok
        have := afterStart_idx (settle s₀ i st sub flag) i caller
        simp only [settle_idx, hx.idx] at this
        exact this
    · simp only [Except.ok.injEq] at hok
      subst hok
      exact afterStart_idx s i caller
  · simp only [Except.ok.injEq] at hok
    subst hok
    cases caller <;> simp [leaveContinue]

theorem rank_visiting (hp : s.pc = .visiting i) :
    rank s = if i = s.idx ∧ Ready s then s.idx + 1 else s.idx := by
  simp only [rank, hp]

theorem leaveVisit_core (h : Core s) : Core (leaveVisit s) ∧ (leaveVisit s).idx = s.idx := by
  unfold leaveVisit
  split
  · exact ⟨h.congr rfl rfl rfl, rfl⟩
  · exact ⟨h.congr rfl rfl rfl, rfl⟩

theorem visitStep_rank (h : Core s) :
    s.idx ≤ rank (visitStep s i) ∧ (i = s.idx → Ready s → s.idx + 1 ≤ rank (visitStep s i)) := by
  have hle := h.idx_le
  unfold visitStep
  split
  · rename_i hi
    obtain ⟨hcore, hidx, hnum, _⟩ := reap_core h hi
    simp only
    split
    · -- `idx` moves on, whatever comes next
      rename_i hmove
      have hfin : ((reap s i).status (reap s i).idx).finished := by
        rw [← hmove.1]
        exact hmove.2
      have hadv := hcore.advance (by omega) hfin
      have hr : ∀ pc, s.idx + 1 ≤ rank { reap s i with idx := (reap s i).idx + 1, pc := pc } := by
        intro pc
        rw [← hidx]
        exact idx_le_rank_at hadv pc
      split
      · exact ⟨le_trans (Nat.le_succ _) (hr _), fun _ _ => hr _⟩
      · exact ⟨le_trans (Nat.le_succ _) (hr _), fun _ _ => hr _⟩
    · rename_i hmove
      have hnot : i = s.idx → ¬Ready s := by
        intro hii hready
        rcases hready with hn | ⟨hnull, hposted⟩
        · omega
        · rcases reap_cases h hi with ⟨_, hnd⟩ | ⟨st, flag, _, hfin, heq⟩
          · cases hs : (s.entries i).sub with
            | null => exact hnull (hii ▸ hs)
            | posted => exact hposted (hii ▸ hs)
            | done err => exact hnd err hs
          · refine hmove ⟨hii.trans hidx.symm, ?_⟩
            rw [heq, settle_status_self]
            exact hfin
      refine ⟨?_, fun hii hready => absurd hready (hnot hii)⟩
      rw [← hidx]
      split
      · obtain ⟨hlc, hli⟩ := leaveVisit_core hcore
        rw [← hli]
        exact idx_le_rank hlc
      · exact idx_le_rank_at hcore _
  · rename_i hi
    obtain ⟨hlc, hli⟩ := leaveVisit_core h
    refine ⟨by rw [← hli]; exact idx_le_rank hlc, ?_⟩
    intro hii _
    have hend : s.idx = s.numEntries := by omega
    have hfreed : rank (leaveVisit s) = s.numEntries + 1 := by
      unfold leaveVisit
      rw [if_pos hend]
      rfl
    omega

theorem step_rank {o : Op} (h : Inv s) (hok : step s o = .ok s') :
    (if o = .progress ∧ Ready s then 1 else 0) + rank s ≤ rank s' := by
  have hinv := step_inv h hok
  have hpc := h.pc
  cases o with
  | build b =>
    simp only [step] at hok
    split at hok
    · rename_i hb
      simp only [Except.ok.injEq] at hok
      subst hok
      have hx := build_extended b s
      simp [rank, hb, hx.pc, hx.idx]
    · cases hok
  | start =>
    simp only [step] at hok
    split at hok
    · rename_i hb
      rw [require_bind_eq_ok] at hok
      obtain ⟨_, hok⟩ := hok
      simp only [Except.ok.injEq] at hok
      subst hok
      simp [rank, hb]
    · cases hok
  | proceed o =>
    simp only [step] at hok
    split at hok
    · rename_i i caller hp
      have hmono := continueStep_idx h.core hok
      have hle := idx_le_rank hinv.core
      have hr : rank s = s.idx := by simp only [rank, hp]
      simp only [reduceCtorEq, false_and, if_false]
      omega
    · rename_i i hp
      simp only [Except.ok.injEq] at hok
      subst hok
      obtain ⟨hv, hv'⟩ := visitStep_rank (i := i) h.core
      simp only [reduceCtorEq, false_and, if_false, Nat.zero_add]
      rw [rank_visiting hp]
      split
      · rename_i hr
        exact hv' hr.1 hr.2
      · exact hv
    · cases hok
  | progress =>
    simp only [step] at hok
    split at hok
    · rename_i hp
      simp only [Except.ok.injEq] at hok
      subst hok
      have hr : rank s = s.idx := by simp only [rank, hp]
      rw [hr, rank_visiting rfl]
      by_cases hready : Ready s
      · rw [if_pos ⟨rfl, hready⟩, if_pos ⟨rfl, hready⟩]
        exact le_of_eq (Nat.add_comm _ _)
      · rw [if_neg (fun hc => hready hc.2), if_neg (fun hc => hready hc.2)]
        exact le_of_eq (Nat.zero_add _)
    · cases hok
  | finishes j err =>
    simp only [step] at hok
    split at hok
    · rename_i hj
      simp only [Except.ok.injEq] at hok
      subst hok
      have hready : Ready s → Ready (settle s j (s.status j) (.done err) s.errflag) := by
        rintro (hn | ⟨hnull, hposted⟩)
        · exact Or.inl hn
        · refine Or.inr ?_
          have hne : s.idx ≠ j := fun he => hposted (he ▸ hj.2)
          rw [settle_idx, settle_sub_other _ _ _ _ _ hne]
          exact ⟨hnull, hposted⟩
      have hle := idx_le_rank hinv.core
      simp only [reduceCtorEq, false_and, if_false, Nat.zero_add]
      cases hp : s.pc with
      | visiting i =>
        rw [rank_visiting hp, rank_visiting (s := settle s j (s.status j) (.done err) s.errflag) hp]
        by_cases hr : i = s.idx ∧ Ready s
        · rw [if_pos hr, if_pos ⟨hr.1, hready hr.2⟩]
          exact le_refl _
        · rw [if_neg hr]
          split
          · exact Nat.le_succ _
          · exact le_refl _
      | freed =>
        simp only [rank, hp, settle]
        exact le_refl _
      | _ =>
        simp only [rank, hp]
        exact hle
    · cases hok

variable {ops : List Op}

theorem run_rank (h : Inv s) (hrun : run step s ops = .ok s') : readyVisits s ops + rank s ≤ rank s' := by
  induction ops generalizing s with
  | nil =>
    simp only [run_nil, Except.ok.injEq] at hrun
    subst hrun
    simp [readyVisits]
  | cons o os ih =>
    obtain ⟨m, hm, hrest⟩ := run_cons_eq_ok hrun
    have h1 := step_rank h hm
    have h2 := ih (step_inv h hm) hrest
    simp only [readyVisits, hm]
    omega

theorem run_inv (hrun : run step State.init ops = .ok s) : Inv s :=
  run_invariant (P := fun _ _ => True) (fun _ _ _ h _ hok => step_inv h hok) init_inv
    (Along.of_forall (fun _ _ => trivial) _ _) hrun

theorem run_no_assert (h : Inv s) (ops : List Op) :
    run step s ops ≠ .error .startAssert ∧ run step s ops ≠ .error .sanityAssert := by
  induction ops generalizing s with
  | nil => simp
  | cons o os ih =>
    cases hs : step s o with
    | error f =>
      rw [run_cons_error hs]
      have hno := step_no_assert (o := o) h
      rw [hs] at hno
      exact hno
    | ok s' =>
      rw [run_cons_ok hs]
      exact ih (step_inv h hs)

theorem run_live (hrun : run step State.init ops = .ok s) (hops : .proceed .localFailed ∉ ops) : Live s := by
  have hno : ∀ o ∈ ops, o ≠ Op.proceed .localFailed := by
    rintro o ho rfl
    exact hops ho
  have hboth : Inv s ∧ Live s := by
    refine run_invariant (I := fun s => Inv s ∧ Live s)
      (P := fun _ o => o ≠ Op.proceed .localFailed) ?_ ⟨init_inv, trivial⟩
      (Along.of_mem hno _) hrun
    rintro s o s' ⟨hi, hl⟩ ho hok
    exact ⟨step_inv hi hok, step_live hi hl ho hok⟩
  exact hboth.2

/-- What a schedule guarantees in every state: its order, and that it is completed at most
once, when everything is finished. -/
structure Orderly (s : State) : Prop where
  idx_le : s.idx ≤ s.numEntries
  prefix_finished : ∀ k < s.idx, (s.status k).finished
  once : ∀ o s', step s o = .ok s' → ∀ j < s.numEntries,
    s.status j ≠ .notStarted → s'.status j ≠ .notStarted
  behind_barrier : ∀ o s', step s o = .ok s' → ∀ j < s.numEntries,
    s.status j = .notStarted → s'.status j ≠ .notStarted →
    ∀ i < j, s.isBarrier i → ∀ k ≤ i, (s.status k).finished
  completions_le : s.completions ≤ 1
  completed_iff : s.completions = 1 ↔ s.pc = .freed
  completed : s.pc = .freed → s.queued = false ∧ ∀ k < s.numEntries, (s.status k).finished

theorem orderly_of_inv (h : Inv s) : Orderly s := by
  have hpc := h.pc
  refine ⟨h.core.idx_le, h.core.finished, ?_, ?_, ?_, ?_, ?_⟩
  · intro o s' hok j hj hst
    rcases step_status h hok j hj with heq | ⟨_, hfin⟩ | ⟨hns, _⟩
    · rw [heq]
      exact hst
    · exact not_finished_of_notStarted hfin
    · exact absurd hns hst
  · intro o s' hok j hj hns hst i hij hbar
    rcases step_status h hok j hj with heq | ⟨hs, _⟩ | ⟨_, _, caller, hp⟩
    · rw [heq] at hst
      exact absurd hns hst
    · rw [hns] at hs
      cases hs
    · simp only [PcInv, hp] at hpc
      exact hpc.1.passed i hij hbar
  · cases hp : s.pc <;> simp only [PcInv, hp] at hpc <;> omega
  · cases hp : s.pc <;> simp only [PcInv, hp] at hpc <;> simp [hpc]
  · intro hp
    simp only [PcInv, hp] at hpc
    exact ⟨hpc.2.1, fun k hk => h.core.finished k (by omega)⟩

/-- A schedule that is pending outside the progress engine: it is queued, it waits for the
sub-request of the entry at `idx` unless everything is finished, and each visit so far that
found it ready has finished an entry. -/
structure Pending (visits : Nat) (s : State) : Prop where
  queued : s.queued = true
  waits : s.idx < s.numEntries → s.status s.idx = .started ∧ (s.entries s.idx).sub ≠ .null
  visits_le : visits ≤ s.idx

/-- No run fails an assertion; every state is orderly; and if no local operation failed the
schedule is not given up and, between calls, is pending in the sense above, so that after
more ready visits than it has entries it has been completed. -/
theorem schedule_runs (ops : List Op) :
    (run step State.init ops ≠ .error .startAssert ∧ run step State.init ops ≠ .error .sanityAssert) ∧
    ∀ s, run step State.init ops = .ok s → Orderly s ∧
      (.proceed .localFailed ∉ ops →
        s.pc ≠ .abandoned ∧ (s.pc = .idle → Pending (readyVisits State.init ops) s)) := by
  refine ⟨run_no_assert init_inv ops, ?_⟩
  intro s hrun
  have h := run_inv hrun
  refine ⟨orderly_of_inv h, ?_⟩
  intro hops
  have hl := run_live hrun hops
  refine ⟨?_, ?_⟩
  · intro hp
    simp only [Live, hp] at hl
  · intro hp
    have hpc := h.pc
    simp only [Live, hp] at hl
    simp only [PcInv, hp] at hpc
    refine ⟨hpc.1, ?_, ?_⟩
    · intro hlt
      have hns := hl.1 s.idx (le_refl _) hlt (fun b hb hbk => by omega)
      have hst : s.status s.idx = .started := by
        rcases (finished_iff _).mp (hl.2 hlt) with h0 | h1
        · exact absurd h0 hns
        · exact h1
      exact ⟨hst, (h.core.sub s.idx hlt).1.mpr hst⟩
    · have hrank := run_rank init_inv hrun
      have hr : rank s = s.idx := by simp only [rank, hp]
      have h0 : rank State.init = 0 := rfl
      omega

def sendThenCopy : List Op :=
  [.build .send, .build .barrier, .build .copy, .start, .proceed .posted, .finishes 0 .none,
    .progress, .proceed .nothing, .proceed .localDone, .proceed .nothing, .proceed .nothing,
    .proceed .nothing]

theorem schedule_runs_sendThenCopy :
    ∃ s, run step State.init sendThenCopy = .ok s ∧ s.pc = .freed ∧ Orderly s :=
  ⟨_, rfl, rfl, ((schedule_runs sendThenCopy).2 _ rfl).1⟩

theorem failed_copy_never_completed :
    ∃ s, run step State.init [.build .copy, .start, .proceed .localFailed] = .ok s ∧ s.pc = .abandoned ∧
      ∀ ops s', run step s ops = .ok s' → s'.completions = 0 ∧ s'.queued = false := by
  refine ⟨_, rfl, rfl, ?_⟩
  intro ops s' hrun
  -- nothing leads out of `abandoned`: only posted sub-requests may still finish
  have hall : s'.pc = .abandoned ∧ s'.completions = 0 ∧ s'.queued = false := by
    refine run_invariant
      (I := fun s : State => s.pc = .abandoned ∧ s.completions = 0 ∧ s.queued = false)
      (P := fun _ _ => True) ?_ ⟨rfl, rfl, rfl⟩ (Along.of_forall (fun _ _ => trivial) _ _) hrun
    rintro s o s' ⟨hp, hc, hq⟩ _ hok
    cases o with
    | finishes j err =>
      simp only [step] at hok
      split at hok
      · simp only [Except.ok.injEq] at hok
        subst hok
        exact ⟨hp, hc, hq⟩
      · cases hok
    | _ => simp [step, hp] at hok
  exact hall.2

end FgMpi.Sched.Completion
