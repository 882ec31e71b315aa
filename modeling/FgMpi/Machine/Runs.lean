import Mathlib.Algebra.BigOperators.Group.Finset.Basic
import Mathlib.Data.Nat.Find

/-! Runs of a fallible step function. -/

namespace FgMpi.Machine.Runs

variable {σ ο ε : Type*}

def run (step : σ → ο → Except ε σ) : σ → List ο → Except ε σ
  | s, [] => .ok s
  | s, o :: os =>
    match step s o with
    | .error e => .error e
    | .ok s' => run step s' os

/-- `P` holds of every operation of the run, in the state it is issued in.
Nothing is asked of the operations after a fault: they are never issued. -/
def Along (step : σ → ο → Except ε σ) (P : σ → ο → Prop) : σ → List ο → Prop
  | _, [] => True
  | s, o :: os => P s o ∧ ∀ s', step s o = .ok s' → Along step P s' os

variable {step : σ → ο → Except ε σ}

variable {s : σ}

@[simp] theorem run_nil (s : σ) : run step s [] = .ok s := rfl

theorem run_cons_ok {s' : σ} {o : ο} (h : step s o = .ok s') (os : List ο) :
    run step s (o :: os) = run step s' os := by
  simp only [run, h]

theorem run_cons_error {o : ο} {e : ε} (h : step s o = .error e) (os : List ο) :
    run step s (o :: os) = .error e := by
  simp only [run, h]

variable {os : List ο}

theorem run_cons_eq_ok {t : σ} {o : ο} (h : run step s (o :: os) = .ok t) :
    ∃ s', step s o = .ok s' ∧ run step s' os = .ok t := by
  cases hstep : step s o with
  | error e => rw [run_cons_error hstep] at h; cases h
  | ok s' => exact ⟨s', rfl, by rw [← run_cons_ok hstep os]; exact h⟩

theorem run_append_eq_ok {t : σ} {xs ys : List ο} (h : run step s (xs ++ ys) = .ok t) :
    ∃ m, run step s xs = .ok m ∧ run step m ys = .ok t := by
  induction xs generalizing s with
  | nil => exact ⟨s, rfl, h⟩
  | cons o os ih =>
    obtain ⟨s', hs', hrest⟩ := run_cons_eq_ok h
    obtain ⟨m, hm, ht⟩ := ih hrest
    exact ⟨m, by rw [run_cons_ok hs']; exact hm, ht⟩

theorem run_append_of_ok {m : σ} {xs : List ο} (h : run step s xs = .ok m) (ys : List ο) :
    run step s (xs ++ ys) = run step m ys := by
  induction xs generalizing s with
  | nil =>
    simp only [run_nil, Except.ok.injEq] at h
    rw [List.nil_append, h]
  | cons o os ih =>
    obtain ⟨s', hs', hrest⟩ := run_cons_eq_ok h
    rw [List.cons_append, run_cons_ok hs']
    exact ih hrest

theorem run_take_ok {t : σ} (h : run step s os = .ok t) (k : Nat) : ∃ m, run step s (os.take k) = .ok m := by
  rw [← List.take_append_drop k os] at h
  obtain ⟨m, hm, _⟩ := run_append_eq_ok h
  exact ⟨m, hm⟩

/-- `Along` of a decidable condition can be evaluated: only the states the run
really reaches are looked at. -/
instance decidableAlong (step : σ → ο → Except ε σ) (P : σ → ο → Prop)
    [∀ s o, Decidable (P s o)] : (s : σ) → (os : List ο) → Decidable (Along step P s os)
  | _, [] => isTrue trivial
  | s, o :: os =>
    match h : step s o with
    | .error _ =>
      decidable_of_iff (P s o)
        ⟨fun hP => ⟨hP, fun _ h' => nomatch h.symm.trans h'⟩, fun hA => hA.1⟩
    | .ok s' =>
      have := decidableAlong step P s' os
      decidable_of_iff (P s o ∧ Along step P s' os)
        ⟨fun hP => ⟨hP.1, fun _ h' => Except.ok.inj (h.symm.trans h') ▸ hP.2⟩,
          fun hA => ⟨hA.1, hA.2 s' h⟩⟩

variable {P : σ → ο → Prop}

theorem Along.mono {Q : σ → ο → Prop} (hPQ : ∀ s o, P s o → Q s o)
    (h : Along step P s os) : Along step Q s os := by
  induction os generalizing s with
  | nil => trivial
  | cons o os ih => exact ⟨hPQ s o h.1, fun s' hs' => ih (h.2 s' hs')⟩

theorem Along.of_forall (h : ∀ s o, P s o) (s : σ) (os : List ο) : Along step P s os := by
  induction os generalizing s with
  | nil => trivial
  | cons o os ih => exact ⟨h s o, fun s' _ => ih s'⟩

theorem Along.of_mem {P : ο → Prop} (h : ∀ o ∈ os, P o) (s : σ) : Along step (fun _ o => P o) s os := by
  induction os generalizing s with
  | nil => trivial
  | cons o os ih =>
    exact ⟨h o (by simp), fun s' _ => ih (fun o' ho' => h o' (by simp [ho'])) s'⟩

theorem Along.and {Q : σ → ο → Prop} (hP : Along step P s os) (hQ : Along step Q s os) :
    Along step (fun s o => P s o ∧ Q s o) s os := by
  induction os generalizing s with
  | nil => trivial
  | cons o os ih => exact ⟨⟨hP.1, hQ.1⟩, fun s' hs' => ih (hP.2 s' hs') (hQ.2 s' hs')⟩

theorem Along.take (h : Along step P s os) (k : Nat) : Along step P s (os.take k) := by
  induction os generalizing s k with
  | nil => simp [Along]
  | cons o os ih =>
    cases k with
    | zero => trivial
    | succ k => exact ⟨h.1, fun s' hs' => ih (h.2 s' hs') k⟩

variable {I A : σ → Prop} {P Legal : σ → ο → Prop} {s : σ} {os : List ο}

theorem run_invariant
    (hstep : ∀ s o s', I s → P s o → step s o = .ok s' → I s') {t : σ} (hs : I s) (hP : Along step P s os)
    (hrun : run step s os = .ok t) : I t := by
  induction os generalizing s with
  | nil =>
    simp only [run_nil, Except.ok.injEq] at hrun
    exact hrun ▸ hs
  | cons o os ih =>
    obtain ⟨s', hs', hrest⟩ := run_cons_eq_ok hrun
    exact ih (hstep s o s' hs hP.1 hs') (hP.2 s' hs') hrest

theorem run_of_along
    (hstep : ∀ s o, I s → P s o → ∃ s', step s o = .ok s' ∧ I s') (hs : I s) (hP : Along step P s os) :
    ∃ t, run step s os = .ok t ∧ I t := by
  induction os generalizing s with
  | nil => exact ⟨s, rfl, hs⟩
  | cons o os ih =>
    obtain ⟨s', hs', hI⟩ := hstep s o hs hP.1
    obtain ⟨t, ht, hIt⟩ := ih hI (hP.2 s' hs')
    exact ⟨t, by rw [run_cons_ok hs']; exact ht, hIt⟩

theorem length_le_of_along (rank : σ → Nat)
    (hstep : ∀ s o, I s → P s o → ∃ s', step s o = .ok s' ∧ I s' ∧ rank s' < rank s) (hs : I s)
    (hP : Along step P s os) : os.length ≤ rank s := by
  induction os generalizing s with
  | nil => exact Nat.zero_le _
  | cons o os ih =>
    obtain ⟨s', hs', hI, hrank⟩ := hstep s o hs hP.1
    exact (Nat.succ_le_succ (ih hI (hP.2 s' hs'))).trans hrank

theorem run_ok_iff_along {Safe : σ → ο → Prop}
    (hstep : ∀ s o, I s → Legal s o → ((∃ s', step s o = .ok s') ↔ Safe s o))
    (hinv : ∀ s o s', I s → Legal s o → step s o = .ok s' → I s') (hs : I s) (hlegal : Along step Legal s os) :
    (∃ t, run step s os = .ok t) ↔ Along step Safe s os := by
  induction os generalizing s with
  | nil => exact ⟨fun _ => trivial, fun _ => ⟨s, rfl⟩⟩
  | cons o os ih =>
    constructor
    · rintro ⟨t, ht⟩
      obtain ⟨s', hs', hrest⟩ := run_cons_eq_ok ht
      refine ⟨(hstep s o hs hlegal.1).mp ⟨s', hs'⟩, ?_⟩
      intro s'' hs''
      have heq : s' = s'' := Except.ok.inj (hs'.symm.trans hs'')
      subst heq
      exact (ih (hinv s o s' hs hlegal.1 hs') (hlegal.2 s' hs')).mp ⟨t, hrest⟩
    · rintro ⟨hsafe, hrest⟩
      obtain ⟨s', hs'⟩ := (hstep s o hs hlegal.1).mpr hsafe
      obtain ⟨t, ht⟩ := (ih (hinv s o s' hs hlegal.1 hs') (hlegal.2 s' hs')).mpr (hrest s' hs')
      exact ⟨t, by rw [run_cons_ok hs']; exact ht⟩

theorem legal_states_iff_along
    (hgood : ∀ s, I s → A s) (hkeep : ∀ s o s', I s → Legal s o → P s o → step s o = .ok s' → I s')
    (hback : ∀ s o s', I s → Legal s o → step s o = .ok s' → A s' → P s o)
    {t : σ} (hs : I s) (hlegal : Along step Legal s os) (hrun : run step s os = .ok t) :
    (∀ k m, run step s (os.take k) = .ok m → A m) ↔ Along step P s os := by
  constructor
  · intro h
    induction os generalizing s with
    | nil => trivial
    | cons o os ih =>
      obtain ⟨s', hs', hrest⟩ := run_cons_eq_ok hrun
      have hA : A s' := h 1 s' (by rw [List.take_succ_cons, List.take_zero, run_cons_ok hs']; rfl)
      have hP := hback s o s' hs hlegal.1 hs' hA
      refine ⟨hP, ?_⟩
      intro s'' hs''
      have heq : s' = s'' := Except.ok.inj (hs'.symm.trans hs'')
      subst heq
      refine ih (hkeep s o s' hs hlegal.1 hP hs') (hlegal.2 s' hs') hrest ?_
      intro k m hm
      exact h (k + 1) m (by rw [List.take_succ_cons, run_cons_ok hs']; exact hm)
  · intro h k m hm
    have hstep : ∀ s o s', I s → Legal s o ∧ P s o → step s o = .ok s' → I s' :=
      fun s o s' hI hP hok => hkeep s o s' hI hP.1 hP.2 hok
    exact hgood m (run_invariant hstep hs ((hlegal.and h).take k) hm)

theorem states_iff_along (hgood : ∀ s, I s → A s) (hkeep : ∀ s o s', I s → P s o → step s o = .ok s' → I s')
    (hback : ∀ s o s', I s → step s o = .ok s' → A s' → P s o)
    {t : σ} (hs : I s) (hrun : run step s os = .ok t) :
    (∀ k m, run step s (os.take k) = .ok m → A m) ↔ Along step P s os := by
  have hlegal : Along step (fun _ _ => True) s os := Along.of_forall (fun _ _ => trivial) s os
  exact legal_states_iff_along hgood (fun s o s' hI _ => hkeep s o s' hI)
    (fun s o s' hI _ => hback s o s' hI) hs hlegal hrun

theorem good_run_iff_along
    (hgood : ∀ s, I s → A s) (hkeep : ∀ s o, I s → Legal s o → P s o → ∃ s', step s o = .ok s' ∧ I s')
    (hback : ∀ s o s', I s → Legal s o → step s o = .ok s' → A s' → P s o) (hs : I s) (hlegal : Along step Legal s os) :
    ((∃ t, run step s os = .ok t) ∧ ∀ k m, run step s (os.take k) = .ok m → A m) ↔ Along step P s os := by
  have hkeep' : ∀ s o s', I s → Legal s o → P s o → step s o = .ok s' → I s' := by
    intro s o s' hI hL hP hok
    obtain ⟨s'', hok', hI'⟩ := hkeep s o hI hL hP
    exact Except.ok.inj (hok'.symm.trans hok) ▸ hI'
  constructor
  · intro h
    obtain ⟨⟨t, hrun⟩, hstates⟩ := h
    exact (legal_states_iff_along hgood hkeep' hback hs hlegal hrun).mp hstates
  · intro hP
    have hstep : ∀ s o, I s → Legal s o ∧ P s o → ∃ s', step s o = .ok s' ∧ I s' :=
      fun s o hI hLP => hkeep s o hI hLP.1 hLP.2
    obtain ⟨t, hrun, _⟩ := run_of_along hstep hs (hlegal.and hP)
    exact ⟨⟨t, hrun⟩, (legal_states_iff_along hgood hkeep' hback hs hlegal hrun).mpr hP⟩

theorem sum_step {P : Type*} [DecidableEq P] {procs : Finset P} {p : P} {f g : P → Nat}
    (hp : p ∈ procs) (hstep : f p = g p + 1) (hsame : ∀ q ≠ p, f q = g q) :
    ∑ q ∈ procs, f q = ∑ q ∈ procs, g q + 1 := by
  rw [← Finset.add_sum_erase procs f hp, ← Finset.add_sum_erase procs g hp, hstep]
  have hrest : ∑ q ∈ procs.erase p, f q = ∑ q ∈ procs.erase p, g q :=
    Finset.sum_congr rfl fun q hq => hsame q (Finset.ne_of_mem_erase hq)
  omega

theorem exists_lowest {P A : Type*} (level : A → Nat) {todo : P → List A} (hnot : ∃ p, todo p ≠ []) :
    ∃ p a rest, todo p = a :: rest ∧ ∀ q b rest', todo q = b :: rest' → level a ≤ level b := by
  have hsome : ∃ n p a rest, todo p = a :: rest ∧ level a = n := by
    obtain ⟨p, hp⟩ := hnot
    obtain ⟨a, rest, htodo⟩ := List.exists_cons_of_ne_nil hp
    exact ⟨level a, p, a, rest, htodo, rfl⟩
  classical
  obtain ⟨p, a, rest, htodo, hlevel⟩ := Nat.find_spec hsome
  refine ⟨p, a, rest, htodo, fun q b rest' hq => ?_⟩
  rw [hlevel]
  exact Nat.find_min' hsome ⟨q, b, rest', hq, rfl⟩

end FgMpi.Machine.Runs
