import FgMpi.Sleepq.Deadlines

namespace FgMpi.Sleepq.Assertions
open Machine.Runs Machine.Checked
open Sleepq.Threadlib Sleepq.Deadlines

def World.due (w : World) (t : Tid) : Int := w.deadline t

/-- The books: no delta is negative, the deltas add up to `max_sleep_time`, which is 0
exactly for the empty queue, and up to a thread they add up to its deadline. -/
structure Accounted (w : World) : Prop where
  nonneg : ∀ t ∈ w.state.sleepq, 0 ≤ w.state.sleep t
  total : (w.state.sleepq.map w.state.sleep).sum = w.state.maxSleepTime
  empty : w.state.maxSleepTime = 0 ↔ w.state.sleepq = []
  deadlines : ∀ i (hi : i < w.state.sleepq.length),
    ((w.state.sleepq.take (i + 1)).map w.state.sleep).sum =
      (w.deadline (w.state.sleepq.get ⟨i, hi⟩) : Int) - w.state.lastCheckTime

/-- The condition on the state before a call.  For a check (and the one an addition
begins with) the last two deadlines are not both the present time; an appended delta fits
a `long long`; an inserted thread meets no equal deadline; a removed last thread does not
leave threads that are all due. -/
def Safe (w : World) : Op → Prop
  | .add _ timeout now _ => AddSafe w.state (World.due w) timeout now
  | .remove t => RemoveSafe w.state t
  | .check _ now => ¬LastDueTwice w.state (World.due w) now
  | .runs _ => True

structure WorldInv (w : World) : Prop where
  inv : Inv w.state (World.due w)
  checked : w.state.lastCheckTime ≤ w.clock
  clock : w.clock < 2 ^ 63

theorem WorldInv.accounted {w : World} (h : WorldInv w) : Accounted w where
  nonneg := h.inv.nonneg
  total := by rw [h.inv.tracks.sum_eq, h.inv.max_eq]
  empty := by
    have hpos := h.inv.max_pos_iff
    constructor
    · intro h0
      by_contra hne
      have := hpos.mpr hne
      omega
    · intro hq
      by_contra h0
      exact hpos.mp (by omega) hq
  deadlines i hi := h.inv.tracks.prefix_sum i hi

theorem due_update (w : World) (t : Tid) (x : Nat) :
    (fun u => ((Function.update w.deadline t x u : Nat) : Int)) =
      Function.update (World.due w) t (x : Int) := by
  funext u
  by_cases h : u = t
  · subst h; simp
  · simp [h, World.due]

theorem step_spec (w : World) (o : Op) (h : WorldInv w) (hl : Legal w o) :
    ((∃ w', step w o = .ok w') ↔ Safe w o) ∧ ∀ w', step w o = .ok w' → WorldInv w' := by
  have hchk := h.checked
  have hclk := h.clock
  cases o with
  | add t timeout now now' =>
    obtain ⟨hidle, hpos, hlt, hle, hle', hlt'⟩ := hl
    obtain ⟨hiff, hinv⟩ := sleepqAddThread_spec w.state (World.due w) t timeout now now'
      h.inv hidle hpos hlt (by omega) (by omega)
    simp only [Safe, step, bind_eq_ok, Except.ok.injEq]
    constructor
    · rw [← hiff, exists_comm]
      simp only [exists_and_left, exists_eq', and_true]
    · rintro w' ⟨s, hs, rfl⟩
      obtain ⟨hi, hlast⟩ := hinv s hs
      refine ⟨?_, by simp only; omega, hlt'⟩
      change Inv s (fun u => ((Function.update w.deadline t (now + timeout) u : Nat) : Int))
      rw [due_update]
      exact_mod_cast hi
  | remove t =>
    obtain ⟨hiff, hinv⟩ := sleepqRemoveThread_spec h.inv hl
    simp only [Safe, step, bind_eq_ok, Except.ok.injEq]
    constructor
    · rw [← hiff, exists_comm]
      simp only [exists_and_left, exists_eq', and_true]
    · rintro w' ⟨s, hs, rfl⟩
      obtain ⟨hi, hlast⟩ := hinv s hs
      exact ⟨hi, by simp only; omega, hclk⟩
  | check sync now =>
    obtain ⟨hle, hlt⟩ := hl
    have hiff := sleepqCheck_ok_iff w.state (World.due w) sync now h.inv (by omega) hlt
    simp only [Safe, step, bind_eq_ok, Except.ok.injEq]
    constructor
    · rw [← hiff, exists_comm]
      simp only [exists_and_left, exists_eq', and_true]
    · rintro w' ⟨s, hs, rfl⟩
      obtain ⟨hi, hlast, _⟩ := sleepqCheck_inv w.state s (World.due w) sync now h.inv
        (by omega) hlt hs
      exact ⟨hi, hlast, hlt⟩
  | runs t =>
    refine ⟨⟨fun _ => trivial, fun _ => ⟨_, rfl⟩⟩, ?_⟩
    intro w' hw'
    simp only [step, Except.ok.injEq] at hw'
    subst hw'
    -- only the flag of a thread that is not queued changes
    have hnot : t ∉ w.state.sleepq := by
      rw [h.inv.queued]
      exact fun hne => hne hl
    have hsleep : ∀ u, (Function.update w.state.thread t
        { w.state.thread t with timeout := false } u).sleep = w.state.sleep u := by
      intro u
      by_cases hu : u = t
      · subst hu; simp [State.sleep]
      · simp [State.sleep, hu]
    refine ⟨⟨h.inv.nodup, ?_, ?_, ?_, ?_, h.inv.max_eq, h.inv.max_lt, h.inv.sane⟩, hchk, hclk⟩
    · intro u
      simp only [State.sleep, hsleep]
      exact h.inv.queued u
    · intro u hu
      simp only [State.sleep, hsleep]
      exact h.inv.range u hu
    · intro u hu
      have hut : u ≠ t := fun he => hnot (he ▸ hu)
      simp only [Function.update_of_ne hut]
      exact h.inv.flag u hu
    · exact h.inv.tracks.congr (fun u _ => hsleep u) (fun _ _ => rfl)

theorem init_worldInv : WorldInv World.init where
  inv := init_inv _
  checked := le_refl _
  clock := by decide

/-- After every prefix of a sequence of calls all assertions have held and the books are
right, exactly when every call was safe in the state it was made in. -/
theorem assertions_hold_iff_safe (ops : List Op) (hlegal : Along step Legal World.init ops) :
    (∀ k ≤ ops.length, ∃ w, run step World.init (ops.take k) = .ok w ∧ Accounted w) ↔
      Along step Safe World.init ops := by
  have hstep : ∀ w o, WorldInv w → Legal w o → ((∃ w', step w o = .ok w') ↔ Safe w o) :=
    fun w o h hl => (step_spec w o h hl).1
  have hinv : ∀ w o w', WorldInv w → Legal w o → step w o = .ok w' → WorldInv w' :=
    fun w o w' h hl => (step_spec w o h hl).2 w'
  rw [← run_ok_iff_along hstep hinv init_worldInv hlegal]
  constructor
  · intro hall
    obtain ⟨w, hw, _⟩ := hall ops.length le_rfl
    rw [List.take_length] at hw
    exact ⟨w, hw⟩
  · rintro ⟨w, hw⟩ k _
    obtain ⟨m, hm⟩ := run_take_ok hw k
    exact ⟨m, hm, (run_invariant hinv init_worldInv (hlegal.take k) hm).accounted⟩

def wakeAndResume : List Op := [.add 1 100 10 11, .add 2 50 20 20, .check false 75, .runs 2, .remove 1]

theorem assertions_hold_wakeAndResume :
    Along step Legal World.init wakeAndResume ∧
      ((∀ k ≤ wakeAndResume.length,
          ∃ w, run step World.init (wakeAndResume.take k) = .ok w ∧ Accounted w) ↔
        Along step Safe World.init wakeAndResume) :=
  ⟨by decide, assertions_hold_iff_safe wakeAndResume (by decide)⟩

theorem equal_deadline_faults :
    Along step Legal World.init [.add 1 100 0 0, .add 2 200 0 0, .add 3 100 0 0] ∧
      run step World.init [.add 1 100 0 0, .add 2 200 0 0, .add 3 100 0 0] = .error .insertNotPositive :=
  ⟨by decide, rfl⟩

end FgMpi.Sleepq.Assertions
