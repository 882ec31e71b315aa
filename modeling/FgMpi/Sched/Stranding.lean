import FgMpi.Sched.Completion

namespace FgMpi.Sched.Stranding
open Machine.Runs Machine.Checked Tag
open Sched.Schedule Sched.Ordering Sched.Completion

def Eligible (s : State) (k : Nat) : Prop := ∀ b < k, s.isBarrier b → ∀ j ≤ b, (s.status j).finished

def AllStarted (s : State) : Prop := ∀ k < s.numEntries, s.status k ≠ .notStarted

def Outstanding (s : State) (k : Nat) : Prop :=
  s.status k = .started ∧ isPointToPoint (s.entries k).kind ∧ (s.entries k).sub ≠ .null

/-- Whenever control is outside and the schedule is enqueued, nothing that may be started is left, and
there is something to wait for or nothing to start. -/
def Unstranded (s : State) : Prop :=
  s.pc = .idle → s.queued = true → (∀ k < s.numEntries, Eligible s k → s.status k ≠ .notStarted) ∧
    ((∃ k < s.numEntries, Outstanding s k) ∨ AllStarted s)

def failing (s : State) (o : Op) : Option Nat :=
  match s.pc, o with
  | .continuing i (some _), .proceed .localFailed =>
    if i < s.numEntries ∧ s.status i = .notStarted then some i else none
  | _, _ => none

def Harmless (s : State) (o : Op) : Prop :=
  ∀ i ∈ failing s o, i + 1 = s.numEntries ∨ s.isBarrier i ∧ s.idx < i

instance (s : State) (o : Op) : Decidable (Harmless s o) :=
  inferInstanceAs (Decidable (∀ i ∈ failing s o, i + 1 = s.numEntries ∨ s.isBarrier i ∧ s.idx < i))

variable {s s' : State} {i : Nat}

theorem failing_eq_some {o : Op} (h : failing s o = some i) :
    ∃ p, s.pc = .continuing i (some p) ∧ o = .proceed .localFailed ∧ i < s.numEntries ∧
      s.status i = .notStarted := by
  unfold failing at h
  split at h
  · rename_i j p hp
    split at h
    · rename_i hstarts
      cases h
      exact ⟨p, hp, rfl, hstarts⟩
    · cases h
  · cases h

def Unbroken (s : State) : Prop :=
  match s.pc with
  | .building | .freed | .abandoned => True
  | .continuing i _ => s.idx < i → (s.status s.idx).finished = false
  | .idle => RegionStarted s ∧ (s.idx < s.numEntries → (s.status s.idx).finished = false ∨ AllStarted s)
  | .visiting i => RegionStarted s ∧ (s.idx < i → (s.status s.idx).finished = false)

theorem Unbroken.of_live (h : Live s) : Unbroken s := by
  unfold Live at h
  unfold Unbroken
  cases hp : s.pc with
  | building => trivial
  | freed => trivial
  | abandoned => trivial
  | continuing i caller =>
    simp only [hp] at h
    exact h
  | visiting i =>
    simp only [hp] at h
    exact h
  | idle =>
    simp only [hp] at h
    exact ⟨h.1, fun hlt => Or.inl (h.2 hlt)⟩

theorem behind_notStarted (h : Core s) (hns : s.status i = .notStarted) {k : Nat}
    (hik : i < k) (hk : k < s.numEntries) : s.status k = .notStarted := by
  by_contra hst
  exact h.in_order i k hik hk hst hns

theorem startEntry_failed {err : Bool} (h : startEntry s i .localFailed = .ok (s', err)) :
    err = true ∧ s' = settle s i .failed (s.entries i).sub s.errflag := by
  unfold startEntry at h
  rw [require_bind_eq_ok] at h
  obtain ⟨_, h⟩ := h
  cases hk : (s.entries i).kind <;> simp only [hk] at h <;> cases h <;> exact ⟨rfl, rfl⟩

variable {caller : Option Nat}

theorem continueStep_passing
    (h : ¬(i < s.numEntries ∧ s.status i = .notStarted)) (o o' : Outcome) :
    continueStep s i caller o = continueStep s i caller o' := by
  unfold continueStep
  by_cases hi : i < s.numEntries
  · have hns : s.status i ≠ .notStarted := fun hns => h ⟨hi, hns⟩
    rw [if_pos hi, if_pos hi, if_neg hns, if_neg hns]
  · rw [if_neg hi, if_neg hi]

theorem continueStep_failed (hi : i < s.numEntries)
    (hns : s.status i = .notStarted) (hok : continueStep s i caller .localFailed = .ok s') :
    s' = leaveContinue (settle s i .failed (s.entries i).sub s.errflag) caller true := by
  unfold continueStep at hok
  rw [if_pos hi, if_pos hns, bind_eq_ok] at hok
  obtain ⟨⟨s₁, err⟩, hstart, hok⟩ := hok
  obtain ⟨rfl, rfl⟩ := startEntry_failed hstart
  simp only [if_true, Except.ok.injEq] at hok
  exact hok.symm

theorem failed_started (hl : LoopInv s i caller) (k : Nat) (hk : k < i + 1) (sub : SubReq) (flag : Errflag) :
    (settle s i .failed sub flag).status k ≠ .notStarted := by
  by_cases hki : k = i
  · subst hki
    rw [settle_status_self]
    simp
  · rw [settle_status_other _ _ _ _ _ hki]
    exact hl.started k (by omega)

theorem failed_unbroken {p : Nat} (hl : LoopInv s i (some p))
    (hlive : s.idx < i → (s.status s.idx).finished = false)
    (hharmless : i + 1 = s.numEntries ∨ s.isBarrier i ∧ s.idx < i) (sub : SubReq) (flag : Errflag) :
    Unbroken { settle s i .failed sub flag with pc := .idle } := by
  refine ⟨?_, ?_⟩
  · intro k hk hkn hnobar
    refine failed_started hl k ?_ sub flag
    rcases hharmless with hlast | ⟨hbar, _⟩
    · have hlt : k < s.numEntries := hkn
      omega
    · by_contra hgt
      have hopen := hnobar i hl.idx_le (by omega)
      have hsame := settle_isBarrier s i .failed sub flag i
      have hflag : s.isBarrier i = false := hsame.symm.trans hopen
      rw [hbar] at hflag
      cases hflag
  · intro hlt
    rcases hharmless with hlast | ⟨_, hidx⟩
    · right
      intro k hk
      have hkn : k < s.numEntries := hk
      exact failed_started hl k (by omega) sub flag
    · left
      have hother := settle_status_other s i .failed sub flag (by omega : s.idx ≠ i)
      exact (congrArg Status.finished hother).trans (hlive hidx)

theorem step_unbroken {o : Op} (h : Inv s) (hu : Unbroken s) (ho : Harmless s o)
    (hok : step s o = .ok s') : Unbroken s' := by
  have hpc := h.pc
  cases o with
  | build b =>
    simp only [step] at hok
    split at hok
    · rename_i hb
      simp only [Except.ok.injEq] at hok
      subst hok
      simp only [Unbroken, (build_extended b s).pc, hb]
    · cases hok
  | start =>
    simp only [step] at hok
    split at hok
    · rw [require_bind_eq_ok] at hok
      obtain ⟨_, hok⟩ := hok
      simp only [Except.ok.injEq] at hok
      subst hok
      intro hlt
      simp only at hlt
      omega
    · cases hok
  | proceed o =>
    simp only [step] at hok
    split at hok
    · rename_i i caller hp
      simp only [PcInv, hp] at hpc
      simp only [Unbroken, hp] at hu
      by_cases hfailed : o = .localFailed
      · subst hfailed
        by_cases hstarts : i < s.numEntries ∧ s.status i = .notStarted
        · obtain ⟨hi, hns⟩ := hstarts
          rw [continueStep_failed hi hns hok]
          cases caller with
          | none => trivial
          | some p =>
            have hfailing : failing s (.proceed .localFailed) = some i := by
              simp only [failing, hp, hi, hns, and_self, if_true]
            exact failed_unbroken hpc.1 hu (ho i hfailing) _ _
        · rw [continueStep_passing hstarts .localFailed .nothing] at hok
          exact Unbroken.of_live (continueStep_live h.core hpc.1 hu (by decide) hok)
      · exact Unbroken.of_live (continueStep_live h.core hpc.1 hu hfailed hok)
    · rename_i i hp
      simp only [Except.ok.injEq] at hok
      subst hok
      simp only [Unbroken, hp] at hu
      exact Unbroken.of_live (visitStep_live h.core hu.1 hu.2)
    · cases hok
  | progress =>
    simp only [step] at hok
    split at hok
    · rename_i hp
      simp only [Except.ok.injEq] at hok
      subst hok
      simp only [Unbroken, hp] at hu
      refine ⟨hu.1, ?_⟩
      intro hlt
      simp only at hlt
      omega
    · cases hok
  | finishes j err =>
    simp only [step] at hok
    split at hok
    · simp only [Except.ok.injEq] at hok
      subst hok
      have hsame : ∀ k, (settle s j (s.status j) (.done err) s.errflag).status k = s.status k :=
        settle_status_same s j (.done err) s.errflag
      have hall : AllStarted s → AllStarted (settle s j (s.status j) (.done err) s.errflag) := by
        intro ha k hk
        rw [hsame]
        exact ha k hk
      have hpc' : (settle s j (s.status j) (.done err) s.errflag).pc = s.pc := rfl
      simp only [Unbroken, hpc', settle_idx, settle_numEntries, hsame] at hu ⊢
      cases hp : s.pc with
      | idle =>
        simp only [hp] at hu
        exact ⟨hu.1.done j err, fun hlt => (hu.2 hlt).imp_right hall⟩
      | visiting i => simp only [hp] at hu; exact ⟨hu.1.done j err, hu.2⟩
      | continuing i caller => simp only [hp] at hu; exact hu
      | building => trivial
      | freed => trivial
      | abandoned => trivial
    · cases hok

theorem unstranded_of_unbroken (h : Inv s) (hu : Unbroken s) : Unstranded s := by
  intro hp _
  simp only [Unbroken, hp] at hu
  obtain ⟨hreg, hopen⟩ := hu
  have hbefore : ∀ k < s.idx, s.status k ≠ .notStarted := fun k hk =>
    not_finished_of_notStarted (h.core.finished k hk)
  by_cases hall : AllStarted s
  · exact ⟨fun k hk _ => hall k hk, Or.inr hall⟩
  · have hlt : s.idx < s.numEntries := by
      by_contra hge
      exact hall fun k hk => hbefore k (by omega)
    have hunfinished : (s.status s.idx).finished = false := by
      rcases hopen hlt with hf | ha
      · exact hf
      · exact absurd ha hall
    refine ⟨?_, Or.inl ⟨s.idx, hlt, ?_⟩⟩
    · intro k hk helig
      rcases Nat.lt_or_ge k s.idx with hki | hki
      · exact hbefore k hki
      · refine hreg k hki hk ?_
        intro b hb hbk
        rw [← Bool.not_eq_true]
        intro hbar
        -- a barrier from `idx` on is not behind finished entries only
        have hfin := helig b hbk hbar s.idx hb
        rw [hunfinished] at hfin
        cases hfin
    · have hns := hreg s.idx (Nat.le_refl _) hlt fun b hb hbk => by omega
      have hst : s.status s.idx = .started := by
        rcases (finished_iff _).mp hunfinished with h0 | h1
        · exact absurd h0 hns
        · exact h1
      exact ⟨hst, (h.core.sub s.idx hlt).2 hst, (h.core.sub s.idx hlt).1.mpr hst⟩

theorem harmless_of_unstranded {o : Op} (h : Inv s) (hok : step s o = .ok s')
    (hun : Unstranded s') : Harmless s o := by
  intro i hfailing
  obtain ⟨p, hp, rfl, hi, hns⟩ := failing_eq_some hfailing
  have hpc := h.pc
  simp only [PcInv, hp] at hpc
  obtain ⟨hl, _, hq⟩ := hpc
  simp only [step, hp] at hok
  have hs' := continueStep_failed hi hns hok
  subst hs'
  by_contra hharm
  rw [not_or] at hharm
  obtain ⟨hlast, hbar⟩ := hharm
  obtain ⟨hstarted, _⟩ := hun rfl hq
  have hother : ∀ k, k ≠ i → (leaveContinue (settle s i .failed (s.entries i).sub s.errflag)
      (some p) true).status k = s.status k := fun k hk =>
    settle_status_other s i .failed (s.entries i).sub s.errflag hk
  have hself : (leaveContinue (settle s i .failed (s.entries i).sub s.errflag)
      (some p) true).status i = .failed := 
    settle_status_self s i .failed (s.entries i).sub s.errflag
  refine hstarted (i + 1) (by simp only [leaveContinue, settle_numEntries]; omega) ?_ ?_
  · intro b hb hbb j hj
    have hbar' : s.isBarrier b := by
      have hsame := settle_isBarrier s i .failed (s.entries i).sub s.errflag b
      exact hsame ▸ hbb
    by_cases hji : j = i
    · rw [hji, hself]
      rfl
    · rw [hother j hji]
      rcases Nat.lt_or_ge b i with hbi | hbi
      · exact hl.passed b hbi hbar' j hj
      · -- the failed entry is a barrier itself, and nothing before it is outstanding
        have hbi' : b = i := by omega
        subst hbi'
        have hidx := hl.idx_le
        have hle : ¬ s.idx < b := fun hlt => hbar ⟨hbar', hlt⟩
        exact h.core.finished j (by omega)
  · rw [hother (i + 1) (by omega)]
    exact behind_notStarted h.core hns (by omega) (by omega)

/-- In a run nothing is ever left behind if and only if all failures of local operations in the progress
engine are harmless. -/
theorem unstranded_iff (ops : List Op) (t : State) (hrun : run step State.init ops = .ok t) :
    (∀ k s, run step State.init (ops.take k) = .ok s → Unstranded s) ↔
      Along step Harmless State.init ops := by
  refine states_iff_along (I := fun s => Inv s ∧ Unbroken s) ?_ ?_ ?_ ⟨init_inv, trivial⟩ hrun
  · rintro s ⟨hi, hu⟩
    exact unstranded_of_unbroken hi hu
  · rintro s o s' ⟨hi, hu⟩ ho hok
    exact ⟨step_inv hi hok, step_unbroken hi hu ho hok⟩
  · rintro s o s' ⟨hi, _⟩ hok hun
    exact harmless_of_unstranded hi hok hun

def failedCopy : List Op :=
  [.build .send, .build .barrier, .build .copy, .build .copy, .start, .proceed .posted,
    .finishes 0 .none, .progress, .proceed .nothing, .proceed .localFailed]

structure Stuck (s : State) : Prop where
  sub : ∀ k, (s.entries k).sub = .null
  two : s.status 2 = .notStarted
  num : s.numEntries = 3
  isBarrier : ∀ k, 1 ≤ k → s.isBarrier k = false
  idx : 1 ≤ s.idx ∧ s.idx ≤ 2
  completions : s.completions = 0
  pc : s.pc = .idle ∨ ∃ i, 1 ≤ i ∧ s.pc = .visiting i

theorem Stuck.step {o : Op} (h : Stuck s) (hok : step s o = .ok s') : Stuck s' := by
  cases o with
  | build b =>
    rcases h.pc with hp | ⟨i, _, hp⟩ <;> simp [Schedule.step, hp] at hok
  | start =>
    rcases h.pc with hp | ⟨i, _, hp⟩ <;> simp [Schedule.step, hp] at hok
  | progress =>
    simp only [Schedule.step] at hok
    split at hok
    · simp only [Except.ok.injEq] at hok
      subst hok
      exact ⟨h.sub, h.two, h.num, h.isBarrier, h.idx, h.completions, Or.inr ⟨s.idx, h.idx.1, rfl⟩⟩
    · cases hok
  | finishes j err =>
    simp [Schedule.step, h.sub j] at hok
  | proceed o =>
    rcases h.pc with hp | ⟨i, hi, hp⟩
    · simp [Schedule.step, hp] at hok
    · simp only [Schedule.step, hp, Except.ok.injEq] at hok
      subst hok
      have hreap : reap s i = s := by
        unfold reap
        rw [h.sub i]
        split <;> rename_i heq <;> first | cases heq | rfl
      have hleave : Stuck (leaveVisit s) := by
        have hidx := h.idx
        have hnum := h.num
        unfold leaveVisit
        rw [if_neg (by omega)]
        exact ⟨h.sub, h.two, h.num, h.isBarrier, h.idx, h.completions, Or.inl rfl⟩
      have hbar : (s.entries i).isBarrier = false := h.isBarrier i hi
      unfold visitStep
      rw [hreap]
      split
      · simp only [State.isBarrier, hbar, Bool.false_eq_true, if_false, false_and]
        split
        · rename_i hmove
          refine ⟨h.sub, h.two, h.num, h.isBarrier, ?_, h.completions, Or.inr ⟨i + 1, by omega, rfl⟩⟩
          have hne : s.idx ≠ 2 := by
            intro heq
            rw [hmove.1, heq, h.two] at hmove
            cases hmove.2
          have hidx := h.idx
          simp only
          omega
        · exact ⟨h.sub, h.two, h.num, h.isBarrier, h.idx, h.completions, Or.inr ⟨i + 1, by omega, rfl⟩⟩
      · exact hleave

theorem failedCopy_stranded :
    ∃ s, run step State.init failedCopy = .ok s ∧ ¬ Unstranded s ∧
      ∀ ops t, run step s ops = .ok t → t.status 2 = .notStarted ∧ t.completions = 0 := by
  refine ⟨_, rfl, ?_, ?_⟩
  · intro hun
    obtain ⟨hstarted, _⟩ := hun rfl rfl
    refine hstarted 2 (by decide) ?_ rfl
    intro b hb _ j hj
    have hcases : j = 0 ∨ j = 1 := by omega
    rcases hcases with rfl | rfl <;> rfl
  · intro ops t hrun
    have hstuck : Stuck t := by
      refine run_invariant (I := Stuck) (P := fun _ _ => True)
        (fun s o s' h _ hok => h.step hok) ?_ (Along.of_forall (fun _ _ => trivial) _ _) hrun
      refine ⟨?_, rfl, rfl, ?_, ⟨by decide, by decide⟩, rfl, Or.inl rfl⟩
      · intro k
        rcases k with _ | _ | _ | k <;> rfl
      · intro k hk
        rcases k with _ | _ | _ | k
        · cases hk
        · rfl
        · rfl
        · rfl
    exact ⟨hstuck.two, hstuck.completions⟩

def failedLast : List Op :=
  [.build .send, .build .barrier, .build .send, .build .copy, .start, .proceed .posted,
    .finishes 0 .none, .progress, .proceed .nothing, .proceed .posted, .proceed .localFailed]

theorem unstranded_failedLast :
    ∃ t, run step State.init failedLast = .ok t ∧
      ∀ k s, run step State.init (failedLast.take k) = .ok s → Unstranded s :=
  ⟨_, rfl, (unstranded_iff failedLast _ rfl).2 (by decide +kernel)⟩

end FgMpi.Sched.Stranding
