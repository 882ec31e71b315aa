import FgMpi.Machine.Runs

/-! `MPID_Sched_next_tag` (`mpid/common/sched/mpid_sched.c:83`). -/

namespace FgMpi.Sched.Tags
open Machine.Runs

/-- `MPIR_FIRST_NBC_TAG`, `include/mpiimpl.h:3809`. -/
def firstNbcTag : Nat := 31

structure Schedule (κ : Type) where
  comm : κ
  tag : Nat
deriving Repr, DecidableEq

/-- `held` is the tag that the caller has got and has not passed to `MPID_Sched_start` yet. -/
structure State (κ : Type) where
  nextSchedTag : κ → Nat
  held : κ → Option Nat
  allSchedules : List (Schedule κ)

def State.init (κ : Type) : State κ where
  nextSchedTag _ := firstNbcTag
  held _ := none
  allSchedules := []

section Calls
variable {κ : Type} [DecidableEq κ] (tagUb : Nat)

/-- Whether the half that the counter enters still has a schedule, `mpid_sched.c:102-118`. -/
def tooMany (next : Nat) (allSchedules : List (Schedule κ)) : Bool :=
  if next = tagUb / 2 then
    allSchedules.any (fun elt => decide (tagUb / 2 ≤ elt.tag ∧ elt.tag < tagUb))
  else if next = tagUb then
    allSchedules.any (fun elt => decide (firstNbcTag ≤ elt.tag ∧ elt.tag < tagUb / 2))
  else false

/-- `MPID_Sched_next_tag`; `none` is the error `**toomanynbc`, which jumps over the wraparound. -/
def nextTag (s : State κ) (c : κ) : State κ × Option Nat :=
  let tag := s.nextSchedTag c
  let next := tag + 1
  if tooMany tagUb next s.allSchedules then
    ({ s with
        nextSchedTag := Function.update s.nextSchedTag c next
        held := Function.update s.held c none }, none)
  else
    ({ s with
        nextSchedTag :=
          Function.update s.nextSchedTag c (if next = tagUb then firstNbcTag else next)
        held := Function.update s.held c (some tag) }, some tag)

/-- `MPID_Sched_start` with the tag that was got last; it may fail before the schedule is put into
the list. -/
def start (s : State κ) (c : κ) (ok : Bool) : State κ :=
  match s.held c with
  | none => s
  | some tag =>
    { s with
      held := Function.update s.held c none
      allSchedules := if ok then s.allSchedules ++ [⟨c, tag⟩] else s.allSchedules }

inductive Op (κ : Type)
  | nextTag (c : κ)
  | start (c : κ) (ok : Bool)
  | complete (i : Nat)

def step (s : State κ) : Op κ → Except Empty (State κ)
  | .nextTag c => .ok (nextTag tagUb s c).1
  | .start c ok => .ok (start s c ok)
  | .complete i => .ok { s with allSchedules := s.allSchedules.eraseIdx i }

def halfEnd (next : Nat) : Nat := if next < tagUb / 2 then tagUb / 2 else tagUb

def Taken (next tag : Nat) : Prop :=
  firstNbcTag ≤ tag ∧ tag < tagUb ∧ ¬ (next ≤ tag ∧ tag < halfEnd tagUb next)

structure Ahead (c : κ) (s : State κ) : Prop where
  low : firstNbcTag ≤ s.nextSchedTag c
  high : s.nextSchedTag c < tagUb
  held : ∀ tag, s.held c = some tag → Taken tagUb (s.nextSchedTag c) tag
  free : ∀ elt ∈ s.allSchedules, elt.comm = c → Taken tagUb (s.nextSchedTag c) elt.tag

variable {tagUb}

omit [DecidableEq κ] in
theorem init_ahead (hub : firstNbcTag < tagUb / 2) (c : κ) : Ahead tagUb c (State.init κ) where
  low := Nat.le_refl _
  high := by
    change firstNbcTag < tagUb
    omega
  held _ h := by cases h
  free _ h := by cases h

theorem taken_next (hub : firstNbcTag < tagUb / 2) {next tag : Nat} (hlow : firstNbcTag ≤ next)
    (hhigh : next < tagUb) (htaken : Taken tagUb next tag ∨ tag = next)
    (hcheck : (next + 1 = tagUb / 2 → ¬ (tagUb / 2 ≤ tag ∧ tag < tagUb)) ∧
      (next + 1 = tagUb → ¬ (firstNbcTag ≤ tag ∧ tag < tagUb / 2))) :
    Taken tagUb (if next + 1 = tagUb then firstNbcTag else next + 1) tag := by
  obtain ⟨hhalf, hwrap⟩ := hcheck
  unfold Taken halfEnd at *
  split_ifs at * <;> omega

omit [DecidableEq κ] in
theorem passed_check {next : Nat} {l : List (Schedule κ)}
    (h : tooMany tagUb next l = false) {elt : Schedule κ} (helt : elt ∈ l) (hne : tagUb / 2 ≠ tagUb) :
    (next = tagUb / 2 → ¬ (tagUb / 2 ≤ elt.tag ∧ elt.tag < tagUb)) ∧
      (next = tagUb → ¬ (firstNbcTag ≤ elt.tag ∧ elt.tag < tagUb / 2)) := by
  constructor
  · intro hnext
    rw [tooMany, if_pos hnext, List.any_eq_false] at h
    simpa using h elt helt
  · intro hnext
    rw [tooMany, if_neg (by omega), if_pos hnext, List.any_eq_false] at h
    simpa using h elt helt

def Passes (tagUb : Nat) (c : κ) (s : State κ) : Op κ → Prop
  | .nextTag c' => c' = c → tooMany tagUb (s.nextSchedTag c + 1) s.allSchedules = false
  | _ => True

instance (tagUb : Nat) (c : κ) (s : State κ) : (o : Op κ) → Decidable (Passes tagUb c s o)
  | .nextTag _ => inferInstanceAs (Decidable (_ → _))
  | .start _ _ => isTrue trivial
  | .complete _ => isTrue trivial

variable {s : State κ}

theorem nextTag_ahead (hub : firstNbcTag < tagUb / 2) {c : κ} (ha : Ahead tagUb c s)
    (hpass : tooMany tagUb (s.nextSchedTag c + 1) s.allSchedules = false) :
    Ahead tagUb c (nextTag tagUb s c).1 := by
  have hlow := ha.low
  have hhigh := ha.high
  have hnext : (nextTag tagUb s c).1.nextSchedTag c =
      if s.nextSchedTag c + 1 = tagUb then firstNbcTag else s.nextSchedTag c + 1 := by
    simp [nextTag, hpass]
  refine ⟨?_, ?_, ?_, ?_⟩
  · rw [hnext]
    split <;> omega
  · rw [hnext]
    split <;> omega
  · intro tag htag
    have heq : tag = s.nextSchedTag c := by simpa [nextTag, hpass, eq_comm] using htag
    rw [hnext]
    refine taken_next hub hlow hhigh (Or.inr heq) ⟨?_, ?_⟩
    · omega
    · omega
  · intro elt helt hc
    have hmem : elt ∈ s.allSchedules := by simpa [nextTag, hpass] using helt
    rw [hnext]
    exact taken_next hub hlow hhigh (Or.inl (ha.free elt hmem hc))
      (passed_check hpass hmem (by omega))

theorem nextTag_other {c c' : κ} (ha : Ahead tagUb c s) (hne : c' ≠ c) :
    Ahead tagUb c (nextTag tagUb s c').1 := by
  unfold nextTag
  dsimp only
  split
  · refine ⟨?_, ?_, ?_, ?_⟩
    · simpa [Ne.symm hne] using ha.low
    · simpa [Ne.symm hne] using ha.high
    · simpa [Ne.symm hne] using ha.held
    · simpa [Ne.symm hne] using ha.free
  · refine ⟨?_, ?_, ?_, ?_⟩
    · simpa [Ne.symm hne] using ha.low
    · simpa [Ne.symm hne] using ha.high
    · simpa [Ne.symm hne] using ha.held
    · simpa [Ne.symm hne] using ha.free

theorem start_ahead {c : κ} (ha : Ahead tagUb c s) (c' : κ) (ok : Bool) : Ahead tagUb c (start s c' ok) := by
  unfold start
  cases hheld : s.held c' with
  | none => exact ha
  | some tag =>
    refine ⟨ha.low, ha.high, ?_, ?_⟩
    · intro tag' htag'
      by_cases hc : c = c'
      · subst hc
        change Function.update s.held c none c = some tag' at htag'
        rw [Function.update_self] at htag'
        cases htag'
      · change Function.update s.held c' none c = some tag' at htag'
        rw [Function.update_of_ne hc] at htag'
        exact ha.held tag' htag'
    · intro elt helt hc
      cases ok with
      | false => exact ha.free elt helt hc
      | true =>
        rcases List.mem_append.mp helt with helt | hnew
        · exact ha.free elt helt hc
        · obtain rfl := List.mem_singleton.mp hnew
          obtain rfl : c' = c := hc
          exact ha.held tag hheld

theorem step_ahead (hub : firstNbcTag < tagUb / 2) {c : κ} {o : Op κ}
    (ha : Ahead tagUb c s) (hpass : Passes tagUb c s o) {s' : State κ}
    (hstep : step tagUb s o = .ok s') : Ahead tagUb c s' := by
  cases o with
  | nextTag c' =>
    cases hstep
    by_cases hc : c' = c
    · subst hc
      exact nextTag_ahead hub ha (hpass rfl)
    · exact nextTag_other ha hc
  | start c' ok =>
    cases hstep
    exact start_ahead ha c' ok
  | complete i =>
    cases hstep
    exact ⟨ha.low, ha.high, ha.held, fun elt helt => ha.free elt (List.mem_of_mem_eraseIdx helt)⟩

def Usable (tagUb : Nat) (c : κ) (s : State κ) (tag : Nat) : Prop :=
  firstNbcTag ≤ tag ∧ tag < tagUb ∧ ∀ elt ∈ s.allSchedules, elt.comm = c → elt.tag ≠ tag

/-- As long as no call for `c` has failed, every tag handed out is in range and not in use. -/
theorem next_tag_usable (hub : firstNbcTag < tagUb / 2) (c : κ) {ops : List (Op κ)} {s : State κ}
    (hpass : Along (step tagUb) (Passes tagUb c) (State.init κ) ops)
    (hrun : run (step tagUb) (State.init κ) ops = .ok s) {tag : Nat}
    (htag : (nextTag tagUb s c).2 = some tag) : Usable tagUb c s tag := by
  have ha : Ahead tagUb c s :=
    run_invariant (fun s o s' ha hp hs => step_ahead hub ha hp hs) (init_ahead hub c) hpass hrun
  have heq : tag = s.nextSchedTag c := by
    unfold nextTag at htag
    dsimp only at htag
    split at htag
    · cases htag
    · exact (Option.some.inj htag).symm
  subst heq
  refine ⟨ha.low, ha.high, ?_⟩
  intro elt helt hc heq
  have htaken := (ha.free elt helt hc).2.2
  rw [heq] at htaken
  refine htaken ⟨Nat.le_refl _, ?_⟩
  have hhigh := ha.high
  unfold halfEnd
  split <;> omega

end Calls

section Overrun
variable {tagUb : Nat}

def overrunOps (tagUb : Nat) : List (Op Unit) :=
  .nextTag () :: .start () true :: List.replicate (tagUb - 32) (.nextTag ())

theorem step_climb (tagUb : Nat) {s : State Unit}
    (hlow : 32 ≤ s.nextSchedTag ()) (hhigh : s.nextSchedTag () + 1 < tagUb)
    (hall : s.allSchedules = [⟨(), firstNbcTag⟩]) :
    ∃ s', step tagUb s (.nextTag ()) = .ok s' ∧ s'.nextSchedTag () = s.nextSchedTag () + 1 ∧
      s'.allSchedules = [⟨(), firstNbcTag⟩] := by
  have hpass : tooMany tagUb (s.nextSchedTag () + 1) s.allSchedules = false := by
    unfold firstNbcTag at *
    rw [hall, tooMany]
    split
    · simp
      omega
    · rw [if_neg (by omega)]
  refine ⟨_, rfl, ?_, ?_⟩
  · simp only [nextTag, hpass, Bool.false_eq_true, if_false, Function.update_self]
    rw [if_neg (by omega)]
  · simp only [nextTag, hpass, Bool.false_eq_true, if_false]
    exact hall

theorem run_climb (tagUb k : Nat) {s : State Unit}
    (hlow : 32 ≤ s.nextSchedTag ()) (hhigh : s.nextSchedTag () + k < tagUb)
    (hall : s.allSchedules = [⟨(), firstNbcTag⟩]) :
    ∃ s', run (step tagUb) s (List.replicate k (.nextTag ())) = .ok s' ∧
      s'.nextSchedTag () = s.nextSchedTag () + k ∧ s'.allSchedules = [⟨(), firstNbcTag⟩] := by
  induction k generalizing s with
  | zero => exact ⟨s, rfl, rfl, hall⟩
  | succ k ih =>
    obtain ⟨s₁, hs₁, hnext, hall₁⟩ := step_climb tagUb hlow (by omega) hall
    obtain ⟨s', hs', hnext', hall'⟩ := ih (by omega) (by omega) hall₁
    refine ⟨s', ?_, by omega, hall'⟩
    rw [List.replicate_succ, run_cons_ok hs₁]
    exact hs'

/-- The call that enters the first half fails and leaves the counter at `tagUb`; the next one
succeeds with that tag. -/
theorem overrun_tag (hub : firstNbcTag < tagUb / 2) :
    ∃ s, run (step tagUb) (State.init Unit) (overrunOps tagUb) = .ok s ∧
      (nextTag tagUb s ()).2 = some tagUb := by
  have hfirst : firstNbcTag = 31 := rfl
  have hempty : tooMany tagUb 32 ([] : List (Schedule Unit)) = false := by
    unfold tooMany
    split
    · rfl
    · split <;> rfl
  obtain ⟨s₁, hs₁, hnext₁, hall₁⟩ : ∃ s₁, run (step tagUb) (State.init Unit)
      [.nextTag (), .start () true] = .ok s₁ ∧ s₁.nextSchedTag () = 32 ∧
      s₁.allSchedules = [⟨(), firstNbcTag⟩] := by
    refine ⟨_, rfl, ?_, ?_⟩
    · simp [nextTag, start, State.init, hfirst, hempty]
      omega
    · simp [nextTag, start, State.init, hfirst, hempty]
  obtain ⟨s₂, hs₂, hnext₂, hall₂⟩ :=
    run_climb tagUb (tagUb - 33) (s := s₁) (by omega) (by omega) hall₁
  have htop : s₂.nextSchedTag () + 1 = tagUb := by omega
  have hfail : tooMany tagUb (s₂.nextSchedTag () + 1) s₂.allSchedules = true := by
    rw [htop, hall₂, tooMany, if_neg (by omega), if_pos rfl]
    simpa using hub
  obtain ⟨s₃, hs₃, hnext₃⟩ : ∃ s₃, step tagUb s₂ (.nextTag ()) = .ok s₃ ∧
      s₃.nextSchedTag () = tagUb := by
    refine ⟨_, rfl, ?_⟩
    simp only [nextTag, hfail, if_true, Function.update_self]
    exact htop
  refine ⟨s₃, ?_, ?_⟩
  · have hsplit : overrunOps tagUb = [.nextTag (), .start () true] ++
        (List.replicate (tagUb - 33) (.nextTag ()) ++ [.nextTag ()]) := by
      rw [← List.replicate_succ', overrunOps, show tagUb - 32 = tagUb - 33 + 1 by omega]
      rfl
    rw [hsplit, run_append_of_ok hs₁, run_append_of_ok hs₂, run_cons_ok hs₃]
    rfl
  · have hpass : tooMany tagUb (s₃.nextSchedTag () + 1) s₃.allSchedules = false := by
      rw [hnext₃, tooMany, if_neg (by omega), if_neg (by omega)]
    rw [hnext₃] at hpass
    simp only [nextTag, hnext₃, hpass, Bool.false_eq_true, if_false]

theorem next_tag_out_of_range : firstNbcTag < 32767 / 2 ∧
    ∃ s, run (step 32767) (State.init Unit) (overrunOps 32767) = .ok s ∧
      ∃ tag, (nextTag 32767 s ()).2 = some tag ∧ ¬ Usable 32767 () s tag := by
  have hub : firstNbcTag < 32767 / 2 := by decide
  obtain ⟨s, hs, htag⟩ := overrun_tag hub
  refine ⟨hub, s, hs, 32767, htag, ?_⟩
  intro husable
  exact absurd husable.2.1 (Nat.lt_irrefl _)

end Overrun

theorem next_tag_usable_two_comms :
    Along (step 64) (Passes 64 true) (State.init Bool)
        [.nextTag true, .start true true, .nextTag false, .start false true] ∧
      ∃ s, run (step 64) (State.init Bool)
          [.nextTag true, .start true true, .nextTag false, .start false true] = .ok s ∧
        Usable 64 true s 32 := by
  have hub : firstNbcTag < 64 / 2 := by decide
  have hpass : Along (step 64) (Passes 64 true) (State.init Bool)
      [.nextTag true, .start true true, .nextTag false, .start false true] := by decide
  exact ⟨hpass, _, rfl, next_tag_usable hub true hpass rfl rfl⟩

end FgMpi.Sched.Tags
