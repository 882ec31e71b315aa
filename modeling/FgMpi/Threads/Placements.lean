import FgMpi.Threads.Joining

/-! What holds of the lists and of the counters in every state of a run, and which calls break it. -/

namespace FgMpi.Threads.Placements
open Machine.Checked Machine.Placement Machine.Runs
open Threads.Scheduler Threads.Places Threads.Lifecycle Threads.Joining

def listings (s : State) (t : Tid) : Nat × Nat × Nat :=
  (s.runlist.count t, (s.blocklist.map Prod.snd).count t, s.sleepq.count t)

def Place.listings : Place → Nat × Nat × Nat
  | .ready => (1, 0, 0)
  | .blocked => (0, 1, 0)
  | .sleeping => (0, 0, 1)
  | _ => (0, 0, 0)

def population (s : State) (state : ThreadState) : Nat := s.threadlist.countP fun t => (s.thread t).state = state

/-- Every thread is at one place, and the counters say how many threads there are in each state. -/
structure Good (s : State) : Prop where
  nodup : s.threadlist.Nodup
  placed : ∀ t ∈ s.threadlist, ∃ p : Place, p ≠ .absent ∧ (s.thread t).state = p.state ∧
    listings s t = Place.listings p ∧ (s.current = some t ↔ p = .running)
  listed : ∀ t, listings s t ≠ (0, 0, 0) → t ∈ s.threadlist
  runnable : s.numRunnableThreads = population s .runnable
  suspended : s.numSuspendedThreads = population s .suspended
  zombie : s.numZombieThreads = population s .zombie
  total : s.numRunnableThreads + s.numSuspendedThreads + s.numZombieThreads = s.threadlist.length

section Goodness
variable {place : Tid → Place} {s s' : State}

theorem Inv.listings_eq (h : Inv place s) (t : Tid) : listings s t = Place.listings (place t) := by
  unfold listings
  rw [h.runlist t, h.blocklist t, h.sleepq t]
  cases place t <;> rfl

theorem Inv.population_eq (h : Inv place s) (state : ThreadState) : census place s state = population s state := by
  apply List.countP_congr
  intro t ht
  rw [h.state t ((h.present t).mp ht)]

theorem Inv.good (h : Inv place s) : Good s := by
  constructor
  · exact h.nodup
  · intro t ht
    have hpresent := (h.present t).mp ht
    exact ⟨place t, hpresent, h.state t hpresent, Inv.listings_eq h t, h.current t⟩
  · intro t hlisted
    rw [Inv.listings_eq h] at hlisted
    apply (h.present t).mpr
    intro habsent
    rw [habsent] at hlisted
    exact hlisted rfl
  · rw [h.counts.runnable, Inv.population_eq h]
  · rw [h.counts.suspended, Inv.population_eq h]
  · rw [h.counts.zombie, Inv.population_eq h]
  · exact h.sane.2.2.2.2

theorem Proper.good (hproper : Proper s) : Good s := by
  obtain ⟨_, h, _⟩ := hproper
  exact Inv.good h

end Goodness

theorem init_proper : Proper State.init := by
  have hplace : ∀ t, Function.update (fun _ => Place.absent) mainThread .running t ≠ .absent → t = mainThread := by
    intro t ht
    by_contra hne
    rw [Function.update_of_ne hne] at ht
    exact ht rfl
  have hmain : ∀ t, Function.update (fun _ => Place.absent) mainThread .running t ≠ .absent →
      State.init.thread t = { joinable := false } := by
    intro t ht
    rw [hplace t ht]
    rfl
  have hnowhere : ∀ {p : Place}, p ≠ .running ∧ p ≠ .absent →
      Holds (Function.update (fun _ => Place.absent) mainThread .running) p [] := by
    intro p hp t
    rw [if_neg]
    · rfl
    · intro ht
      by_cases htm : t = mainThread
      · rw [htm, Function.update_self] at ht
        exact hp.1 ht.symm
      · rw [Function.update_of_ne htm] at ht
        exact hp.2 ht.symm
  refine ⟨Function.update (fun _ => .absent) mainThread .running, ?_, ?_⟩
  · constructor
    · exact List.nodup_singleton _
    · intro t
      show t ∈ [mainThread] ↔ _
      rw [List.mem_singleton]
      constructor
      · rintro rfl
        simp
      · exact hplace t
    · intro t
      constructor
      · intro ht
        obtain rfl : mainThread = t := Option.some.inj ht
        exact Function.update_self ..
      · intro ht
        rw [hplace t (by rw [ht]; simp)]
        rfl
    · exact hnowhere (by simp)
    · exact hnowhere (by simp)
    · exact hnowhere (by simp)
    · intro t ht
      rw [hmain t ht, hplace t ht]
      rfl
    · intro t ht
      rw [hmain t ht, hplace t ht]
      simp
    · constructor <;> rfl
    · rfl
    · intro t ht
      rw [hmain t ht]
    · intro t ht _
      exact hplace t ht
    · intro t ht
      have hne : t ≠ mainThread := Nat.ne_of_gt ht
      rw [Function.update_of_ne hne]
    · intro t u ht hjoining
      rw [hmain t ht] at hjoining
      exact nomatch hjoining
    · intro t u hu _ hjoined
      rw [hmain u hu] at hjoined
      exact nomatch hjoined
    · intro t ht hjoined
      rw [hmain t ht] at hjoined
      exact absurd rfl hjoined
  · intro t u ht hjoining
    rw [hmain t ht] at hjoining
    exact nomatch hjoining

/-- The calls of the running thread and the rounds of the scheduler; a thread blocks on a key of its own. -/
def Due (s : State) : Option Tid → Op → Prop
  | some _, .resume t => t ∈ s.threadlist
  | some _, .join t => t ∈ s.threadlist
  | some _, .yieldOnEvent worldrank => worldrank ∉ s.blocklist.map Prod.fst
  | some _, .initProgressThread =>
    s.progressThreadRunning = false ∧ progressThreadRank ∉ s.blocklist.map Prod.fst
  | some _, .spawn _ | some _, .yield | some _, .notifyOnEvent _ | some _, .suspendSelf _ _ | some _, .exit => True
  | none, .check _ | none, .pick => True
  | _, _ => False

def Legal (s : State) (o : Op) : Prop := s.ended = false ∧ Due s s.current o

/-- A spawned thread has a name that is not that of the progress thread, and the scheduler does not go back
into `thread_join` before the other thread has exited. -/
def Safe (s : State) : Op → Prop
  | .spawn name => name ≠ none ∧ name ≠ some "FG_PROGRESS_THREAD"
  | .pick => JoinsDead s
  | _ => True

instance (s : State) : (c : Option Tid) → (o : Op) → Decidable (Due s c o)
  | some _, .resume t => inferInstanceAs (Decidable (t ∈ s.threadlist))
  | some _, .join t => inferInstanceAs (Decidable (t ∈ s.threadlist))
  | some _, .yieldOnEvent worldrank => inferInstanceAs (Decidable (worldrank ∉ s.blocklist.map Prod.fst))
  | some _, .initProgressThread => inferInstanceAs (Decidable (_ ∧ _))
  | some _, .spawn _ | some _, .yield | some _, .notifyOnEvent _ | some _, .suspendSelf _ _ | some _, .exit =>
    inferInstanceAs (Decidable True)
  | some _, .check _ | some _, .pick => inferInstanceAs (Decidable False)
  | none, .check _ | none, .pick => inferInstanceAs (Decidable True)
  | none, .spawn _ | none, .initProgressThread | none, .yield | none, .yieldOnEvent _ | none, .notifyOnEvent _
  | none, .suspendSelf _ _ | none, .resume _ | none, .join _ | none, .exit => inferInstanceAs (Decidable False)

instance (s : State) (o : Op) : Decidable (Legal s o) := inferInstanceAs (Decidable (_ ∧ _))

instance (s : State) : (o : Op) → Decidable (Safe s o)
  | .spawn _ => inferInstanceAs (Decidable (_ ∧ _))
  | .pick => inferInstanceAs (Decidable (JoinsDead s))
  | .initProgressThread | .yield | .yieldOnEvent _ | .notifyOnEvent _ | .suspendSelf _ _ | .resume _ | .join _
  | .exit | .check _ => inferInstanceAs (Decidable True)

section Steps
variable {s s' : State} {o : Op}

theorem step_proper (hproper : Proper s) (hlegal : Legal s o) (hsafe : Safe s o) :
    ∃ s', step s o = .ok s' ∧ Proper s' := by
  obtain ⟨hlive, hlegal⟩ := hlegal
  unfold step
  rw [if_neg (by simp [hlive])]
  cases hcurrent : s.current with
  | none =>
    rw [hcurrent] at hlegal
    cases o with
    | check now => exact check_proper hproper now
    | pick => exact pick_proper hproper hcurrent hsafe
    | _ => exact hlegal.elim
  | some c =>
    rw [hcurrent] at hlegal
    cases o with
    | spawn name =>
      cases name with
      | none => exact absurd rfl hsafe.1
      | some name =>
        apply threadSpawn_proper hproper
        exact fun heq => hsafe.2 (congrArg some heq)
    | initProgressThread => exact initProgressThread_proper hproper hlegal.1 hlegal.2
    | yield => exact ⟨_, rfl, threadYield_proper hproper hcurrent⟩
    | yieldOnEvent worldrank => exact ⟨_, rfl, threadYieldOnEvent_proper hproper hcurrent hlegal⟩
    | notifyOnEvent worldrank => exact ⟨_, rfl, schedUnblockThread_proper hproper worldrank⟩
    | suspendSelf timeout now => exact threadSuspendSelf_proper hproper hcurrent timeout now
    | resume t => exact threadResume_proper hproper hlegal
    | join t => exact threadJoin_proper hproper hcurrent hlegal
    | exit => exact threadExit_proper hproper hcurrent
    | check now => exact hlegal.elim
    | pick => exact hlegal.elim

theorem progressName_bad (hproper : Proper s) (hok : threadSpawn (some "FG_PROGRESS_THREAD") s = .ok s') : ¬ Good s' := by
  obtain ⟨place, h, _⟩ := hproper
  have habsent := h.fresh s.maxTid (Nat.le_refl _)
  have hspawned : spawnedState s = s' := by
    unfold threadSpawn at hok
    simp only [if_true] at hok
    replace hok : (sanityCheckThreadcounts (spawnedState s) >>= fun _ => .ok (spawnedState s)) = .ok s' := hok
    unfold sanityCheckThreadcounts at hok
    rw [require_bind] at hok
    split at hok
    · exact Except.ok.inj hok
    · exact nomatch hok
  intro hgood
  rw [← hspawned] at hgood
  have hin : s.maxTid ∈ (spawnedState s).threadlist := List.mem_append_right _ (List.mem_singleton_self _)
  obtain ⟨p, hp, hstate, hlistings, hcurrent⟩ := hgood.placed _ hin
  have hown : (spawnedState s).thread s.maxTid = {} := Function.update_self ..
  have hnowhere : listings (spawnedState s) s.maxTid = (0, 0, 0) := by
    show listings s s.maxTid = _
    rw [Inv.listings_eq h, habsent]
    rfl
  have hnot : (spawnedState s).current ≠ some s.maxTid := by
    intro hrunning
    have hplace := (h.current s.maxTid).mp hrunning
    rw [habsent] at hplace
    exact nomatch hplace
  rw [hown] at hstate
  rw [hnowhere] at hlistings
  cases p with
  | absent => exact hp rfl
  | running => exact hnot (hcurrent.mpr rfl)
  | ready => exact absurd hlistings (by decide)
  | blocked => exact absurd hlistings (by decide)
  | sleeping => exact nomatch hstate
  | suspended => exact nomatch hstate
  | exited => exact nomatch hstate

theorem step_safe (hproper : Proper s) (hlegal : Legal s o) (hok : step s o = .ok s') (hgood : Good s') : Safe s o := by
  obtain ⟨hlive, hlegal⟩ := hlegal
  unfold step at hok
  rw [if_neg (by simp [hlive])] at hok
  cases o with
  | spawn name =>
    cases hcurrent : s.current with
    | none =>
      rw [hcurrent] at hlegal
      exact hlegal.elim
    | some c =>
      rw [hcurrent] at hok
      cases name with
      | none => exact nomatch hok
      | some name =>
        refine ⟨Option.some_ne_none name, ?_⟩
        intro heq
        obtain rfl := Option.some.inj heq
        exact progressName_bad hproper hok hgood
  | pick =>
    cases hcurrent : s.current with
    | none =>
      rw [hcurrent] at hok
      exact joinsDead_of_pick hproper hok
    | some c =>
      rw [hcurrent] at hlegal
      exact hlegal.elim
  | _ => trivial

end Steps

/-- A run ends well and goes through good states only exactly when it is safe. -/
theorem good_iff_safe (ops : List Op) (hlegal : Along step Legal State.init ops) :
    ((∃ s, run step State.init ops = .ok s) ∧ ∀ k s, run step State.init (ops.take k) = .ok s → Good s) ↔
      Along step Safe State.init ops :=
  good_run_iff_along (fun _ => Proper.good) (fun _ _ => step_proper) (fun _ _ _ => step_safe) init_proper hlegal

def early : List Op := [.spawn (some "worker"), .join 1, .pick, .resume mainThread, .yield, .pick]

theorem free_of_living : Along step Legal State.init early ∧ run step State.init early = .error .notZombie :=
  ⟨by decide, rfl⟩

def whole : List Op :=
  [.spawn (some "worker"), .spawn (some "helper"), .initProgressThread, .join 1,
    .pick, .suspendSelf 5 10, .pick, .resume 1, .yieldOnEvent 7, .pick, .notifyOnEvent 7, .suspendSelf 5 10,
    .check 20, .pick, .exit, .pick, .exit, .check 21, .pick, .exit, .pick]

theorem whole_good : Along step Legal State.init whole ∧
    (∃ s, run step State.init whole = .ok s) ∧ ∀ k s, run step State.init (whole.take k) = .ok s → Good s :=
  have hlegal : Along step Legal State.init whole := by decide
  ⟨hlegal, (good_iff_safe whole hlegal).mpr (by decide)⟩

end FgMpi.Threads.Placements
