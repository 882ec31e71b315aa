import FgMpi.Threads.Places

/-! The calls that change what threads there are, or which of them wait for which. -/

namespace FgMpi.Threads.Lifecycle
open Machine.Checked Machine.Placement
open Threads.Scheduler Threads.Places
open Function (update update_of_ne update_self)

variable {place : Tid → Place} {s s' : State} {c t u : Tid}

theorem spawned_inv (h : Inv place s) {q : Place} (hq : q.state = .runnable) (hrunning : q ≠ .running)
    (hthread : s'.thread = update s.thread s.maxTid {})
    (hlist : s'.threadlist = s.threadlist ++ [s.maxTid]) (hmax : s'.maxTid = s.maxTid + 1)
    (hcurrent : s'.current = s.current) (hdaemons : s'.numDaemonThreads = s.numDaemonThreads)
    (hsuspended : s'.numSuspendedThreads = s.numSuspendedThreads)
    (hrunnable : s'.numRunnableThreads = s.numRunnableThreads + 1)
    (hzombie : s'.numZombieThreads = s.numZombieThreads)
    (hrunlist : Holds (update place s.maxTid q) .ready s'.runlist)
    (hblocklist : Holds (update place s.maxTid q) .blocked (s'.blocklist.map Prod.snd))
    (hsleepq : Holds (update place s.maxTid q) .sleeping s'.sleepq) :
    Inv (update place s.maxTid q) s' := by
  have habsent := h.fresh s.maxTid (Nat.le_refl _)
  have hnotin : s.maxTid ∉ s.threadlist := fun hin => (h.present _).mp hin habsent
  have hne : q ≠ .absent := by
    intro heq
    rw [heq] at hq
    exact nomatch hq
  have hsleeping : q ≠ .sleeping := by
    intro heq
    rw [heq] at hq
    exact nomatch hq
  have hother : ∀ x, x ≠ s.maxTid → s'.thread x = s.thread x := by
    intro x hx
    rw [hthread, update_of_ne hx]
  have hown : s'.thread s.maxTid = {} := by rw [hthread, update_self]
  have hold : ∀ x, x ≠ s.maxTid → update place s.maxTid q x ≠ .absent → place x ≠ .absent := by
    intro x hx hplace
    rw [update_of_ne hx] at hplace
    exact hplace
  have hcensus : ∀ state, census (update place s.maxTid q) s' state =
      census place s state + (if ThreadState.runnable = state then 1 else 0) := by
    intro state
    unfold census
    rw [hlist, List.countP_append,
      countP_update_of_notMem (fun p : Place => decide (p.state = state)) hnotin q]
    simp [hq]
  constructor
  · rw [hlist]
    apply List.nodup_append.mpr
    refine ⟨h.nodup, List.nodup_singleton _, ?_⟩
    intro x hx y hy heq
    rw [List.mem_singleton.mp hy] at heq
    exact hnotin (heq ▸ hx)
  · intro x
    rw [hlist, List.mem_append, List.mem_singleton]
    by_cases hx : x = s.maxTid
    · rw [hx, update_self]
      exact iff_of_true (.inr rfl) hne
    · rw [update_of_ne hx, ← h.present]
      exact or_iff_left hx
  · intro x
    rw [hcurrent]
    exact h.current_kept (by simp [habsent]) hrunning x
  · exact hrunlist
  · exact hblocklist
  · exact hsleepq
  · intro x hx
    by_cases hxt : x = s.maxTid
    · rw [hxt, hown, update_self, hq]
    · rw [hother x hxt, update_of_ne hxt]
      exact h.state x (hold x hxt hx)
  · intro x hx
    by_cases hxt : x = s.maxTid
    · rw [hxt, hown, update_self]
      exact iff_of_false (fun hnone => hnone rfl) hsleeping
    · rw [hother x hxt, update_of_ne hxt]
      exact h.sleep x (hold x hxt hx)
  · constructor
    · rw [hcensus, hsuspended, h.counts.suspended]
      rfl
    · rw [hcensus, hrunnable, h.counts.runnable]
      rfl
    · rw [hcensus, hzombie, h.counts.zombie]
      rfl
  · rw [hdaemons]
    exact h.noDaemons
  · intro x hx
    by_cases hxt : x = s.maxTid
    · rw [hxt, hown]
    · rw [hother x hxt]
      exact h.daemon x (hold x hxt hx)
  · intro x hx hjoinable
    by_cases hxt : x = s.maxTid
    · rw [hxt, hown] at hjoinable
      exact nomatch hjoinable
    · rw [hother x hxt] at hjoinable
      exact h.joinable x (hold x hxt hx) hjoinable
  · intro x hx
    rw [hmax] at hx
    have hxt : x ≠ s.maxTid := Nat.ne_of_gt hx
    rw [update_of_ne hxt]
    exact h.fresh x (Nat.le_of_succ_le hx)
  · intro x y hx hjoining
    by_cases hxt : x = s.maxTid
    · rw [hxt, hown] at hjoining
      exact nomatch hjoining
    · rw [hother x hxt] at hjoining
      obtain ⟨hy, hjoinThread, hplace⟩ := h.joining x y (hold x hxt hx) hjoining
      have hyt : y ≠ s.maxTid := fun heq => hy (heq ▸ habsent)
      rw [hother y hyt, update_of_ne hyt, update_of_ne hxt]
      exact ⟨hy, hjoinThread, hplace⟩
  · intro x y hy hexited hjoinThread
    by_cases hyt : y = s.maxTid
    · rw [hyt, hown] at hjoinThread
      exact nomatch hjoinThread
    · rw [hother y hyt] at hjoinThread
      rw [update_of_ne hyt] at hexited
      obtain ⟨hx, hjoining⟩ := h.joined x y (hold y hyt hy) hexited hjoinThread
      have hxt : x ≠ s.maxTid := fun heq => hx (heq ▸ habsent)
      rw [hother x hxt, update_of_ne hxt]
      exact ⟨hx, hjoining⟩
  · intro x hx
    by_cases hxt : x = s.maxTid
    · rw [hxt, hown]
      exact fun hnone => absurd rfl hnone
    · rw [hother x hxt]
      exact h.waited x (hold x hxt hx)

theorem spawned_waits (hw : Waits place s) {q : Place} (hq : q ≠ .exited)
    (hthread : s'.thread = update s.thread s.maxTid {}) :
    Waits (update place s.maxTid q) s' := by
  intro x y hx hjoining hy
  have hyt : y ≠ s.maxTid := by
    intro heq
    rw [heq, update_self] at hy
    exact hq hy
  rw [update_of_ne hyt] at hy
  rw [hthread] at hjoining
  by_cases hxt : x = s.maxTid
  · rw [hxt, update_self] at hjoining
    exact nomatch hjoining
  · rw [update_of_ne hxt] at hx hjoining ⊢
    exact hw x y hx hjoining hy

def spawnedState (s : State) : State :=
  { s.set s.maxTid {} with
    maxTid := s.maxTid + 1
    threadlist := s.threadlist ++ [s.maxTid]
    numRunnableThreads := s.numRunnableThreads + 1 }

theorem threadSpawn_proper (hproper : Proper s) {name : String} (hname : name ≠ "FG_PROGRESS_THREAD") :
    ∃ s', threadSpawn (some name) s = .ok s' ∧ Proper s' := by
  obtain ⟨place, h, hw⟩ := hproper
  have habsent := h.fresh s.maxTid (Nat.le_refl _)
  have hinv : Inv (update place s.maxTid .ready) (schedAddThread s.maxTid (spawnedState s)) := by
    refine spawned_inv h rfl (by simp) rfl rfl rfl rfl rfl rfl rfl rfl ?_ ?_ ?_
    · exact h.runlist.add (by simp [habsent])
    · exact h.blocklist.other (by simp [habsent]) (by simp)
    · exact h.sleepq.other (by simp [habsent]) (by simp)
  refine ⟨_, ?_, _, hinv, spawned_waits hw (by simp) rfl⟩
  unfold threadSpawn
  simp only [if_neg hname]
  show (sanityCheckThreadcounts (schedAddThread s.maxTid (spawnedState s)) >>= _) = _
  rw [sanity_ok hinv.sane]
  rfl

theorem initProgressThread_proper (hproper : Proper s) (hrunning : s.progressThreadRunning = false)
    (hkey : progressThreadRank ∉ s.blocklist.map Prod.fst) :
    ∃ s', initProgressThread s = .ok s' ∧ Proper s' := by
  obtain ⟨place, h, hw⟩ := hproper
  have habsent := h.fresh s.maxTid (Nat.le_refl _)
  have hinv : Inv (update place s.maxTid .blocked)
      (schedBlockThread progressThreadRank s.maxTid (spawnedState s)) := by
    have hblocked : schedBlockThread progressThreadRank s.maxTid (spawnedState s) =
        { spawnedState s with blocklist := s.blocklist ++ [(progressThreadRank, s.maxTid)] } :=
      congrArg (fun l => { spawnedState s with blocklist := l }) (if_neg hkey)
    rw [hblocked]
    refine spawned_inv h rfl (by simp) rfl rfl rfl rfl rfl rfl rfl rfl ?_ ?_ ?_
    · exact h.runlist.other (by simp [habsent]) (by simp)
    · rw [List.map_append]
      exact h.blocklist.add (by simp [habsent])
    · exact h.sleepq.other (by simp [habsent]) (by simp)
  have hsane : Sane (spawnedState s) := hinv.sane
  refine ⟨_, ?_, _, hinv, spawned_waits hw (by simp) rfl⟩
  unfold initProgressThread threadSpawn
  rw [require_bind, if_pos hrunning]
  simp only [if_true]
  show ((sanityCheckThreadcounts (spawnedState s) >>= _) >>= _) = _
  rw [sanity_ok hsane]
  rfl

def suspendedState (c : Tid) (s : State) : State :=
  { leave s with
    numSuspendedThreads := s.numSuspendedThreads + 1
    numRunnableThreads := s.numRunnableThreads - 1 }.set c { s.thread c with state := .suspended }

theorem suspendedState_inv (h : Inv place s) (hc : place c = .running) :
    Inv (update place c .suspended) (suspendedState c s) := by
  have hsleep : (s.thread c).sleep = none := h.sleep_none (by simp [hc]) (by simp [hc])
  refine h.move (by simp [hc]) (by simp [hc]) (by simp) rfl rfl ?_ rfl rfl rfl ?_ ?_ ?_ ?_ ?_ ?_
  · exact iff_of_false (not_not.mpr hsleep) (by simp)
  · exact h.current_left hc (by simp)
  · exact h.runlist.other (by simp [hc]) (by simp)
  · exact h.blocklist.other (by simp [hc]) (by simp)
  · exact h.sleepq.other (by simp [hc]) (by simp)
  · refine h.counts_move (by simp [hc]) rfl ?_ ?_ ?_ <;> simp [hc, Place.state, suspendedState, leave, State.set]
  · exact fun _ => .inr rfl

theorem suspendedState_thread (x : Tid) : (suspendedState c s).thread x =
    { s.thread x with state := if x = c then .suspended else (s.thread x).state } := by
  show update s.thread c { s.thread c with state := .suspended } x = _
  by_cases hx : x = c
  · rw [hx, update_self, if_pos rfl]
  · rw [update_of_ne hx, if_neg hx]

theorem suspendedState_joining (x : Tid) : ((suspendedState c s).thread x).joining = (s.thread x).joining := by
  rw [suspendedState_thread]

theorem suspendedState_waits (hw : Waits place s) (hc : place c = .running) :
    Waits (update place c .suspended) (suspendedState c s) := by
  apply hw.move (by simp [hc]) (by simp) suspendedState_joining
  intro hready
  rw [hc] at hready
  exact nomatch hready

theorem sleepqAddThread_proper (h : Inv place s) (hw : Waits place s) (hc : place c = .suspended)
    (hjoining : (s.thread c).joining = none) (timeout now : Nat) :
    ∃ s', sleepqAddThread c timeout now s = .ok s' ∧ Proper s' := by
  obtain ⟨s₁, place₁, hcheck, hwoken⟩ := sleepqCheck_woken h hw now
  have hinv := hwoken.inv
  have hplace : place₁ c = .suspended := (hwoken.others c (by simp [hc])).trans hc
  have hsleep : (s₁.thread c).sleep = none := by
    by_contra hne
    have hsleeping := (hinv.sleep c (by simp [hplace])).mp hne
    rw [hplace] at hsleeping
    exact nomatch hsleeping
  have hjoining₁ : (s₁.thread c).joining = none := (hwoken.joining c).trans hjoining
  refine ⟨{ s₁.set c { s₁.thread c with sleep := some (now + timeout) } with
    sleepq := s₁.sleepq.takeWhile (Due s₁ (now + timeout) ·) ++
      c :: s₁.sleepq.dropWhile (Due s₁ (now + timeout) ·) }, ?_,
    update place₁ c .sleeping, ?_, ?_⟩
  · unfold sleepqAddThread
    rw [hcheck]
    show (require _ _ >>= _) = _
    rw [require_bind, if_pos hsleep]
  · have hstate : { s₁.thread c with sleep := some (now + timeout) } =
        { s₁.thread c with state := Place.sleeping.state, sleep := some (now + timeout) } := by
      have hown := hinv.state_of hplace (by simp)
      rw [← show Place.suspended.state = Place.sleeping.state from rfl, ← hown]
    have hperm : (s₁.sleepq.takeWhile (Due s₁ (now + timeout) ·) ++
        c :: s₁.sleepq.dropWhile (Due s₁ (now + timeout) ·)).Perm (s₁.sleepq ++ [c]) := by
      apply List.perm_middle.trans
      rw [List.takeWhile_append_dropWhile]
      exact (List.perm_append_singleton c s₁.sleepq).symm
    refine hinv.move (by simp [hplace]) (by simp [hplace]) (by simp) rfl hstate ?_ rfl rfl rfl ?_ ?_ ?_ ?_ ?_ ?_
    · exact iff_of_true (fun hnone => nomatch hnone) rfl
    · exact hinv.current_kept (by simp [hplace]) (by simp)
    · exact hinv.runlist.other (by simp [hplace]) (by simp)
    · exact hinv.blocklist.other (by simp [hplace]) (by simp)
    · exact (hinv.sleepq.add (by simp [hplace])).perm hperm
    · have hsame : ∀ state, census (update place₁ c .sleeping) s₁ state = census place₁ s₁ state := by
        intro state
        have hin : c ∈ s₁.threadlist := (hinv.present c).mpr (by simp [hplace])
        have hupdate : census (update place₁ c .sleeping) s₁ state + _ = census place₁ s₁ state + _ :=
          census_update hinv.nodup hin .sleeping rfl state
        rw [hplace] at hupdate
        exact Nat.add_right_cancel hupdate
      constructor
      · exact hinv.counts.suspended.trans (congrArg _ (hsame .suspended).symm)
      · exact hinv.counts.runnable.trans (congrArg _ (hsame .runnable).symm)
      · exact hinv.counts.zombie.trans (congrArg _ (hsame .zombie).symm)
    · intro hne
      exact absurd hjoining₁ hne
  · apply hwoken.waits.move (by simp [hplace]) (by simp)
    · intro x
      show (update s₁.thread c { s₁.thread c with sleep := some (now + timeout) } x).joining = _
      by_cases hx : x = c
      · rw [hx, update_self]
      · rw [update_of_ne hx]
    · intro hready
      rw [hplace] at hready
      exact nomatch hready

theorem threadSuspendSelf_eq (hsane : Sane (suspendedState c s)) (timeout now : Nat) :
    threadSuspendSelf c timeout now s =
      if timeout = 0 then .ok (suspendedState c s) else sleepqAddThread c timeout now (suspendedState c s) := by
  have hcounted : Sane { leave s with
      numSuspendedThreads := s.numSuspendedThreads + 1
      numRunnableThreads := s.numRunnableThreads - 1 } := hsane
  unfold threadSuspendSelf
  show (sanityCheckThreadcounts _ >>= _) = _
  rw [sanity_ok hcounted]
  rfl

theorem threadSuspendSelf_proper (hproper : Proper s) (hcurrent : s.current = some c) (timeout now : Nat) :
    ∃ s', threadSuspendSelf c timeout now s = .ok s' ∧ Proper s' := by
  obtain ⟨place, h, hw⟩ := hproper
  have hc := (h.current c).mp hcurrent
  have hinv := suspendedState_inv h hc
  have hwaits := suspendedState_waits hw hc
  have hjoining : ((suspendedState c s).thread c).joining = none := by
    rw [suspendedState_joining]
    exact h.joining_none (by simp [hc]) (by simp [hc]) (by simp [hc])
  rw [threadSuspendSelf_eq hinv.sane]
  split
  · exact ⟨_, rfl, _, hinv, hwaits⟩
  · exact sleepqAddThread_proper hinv hwaits (update_self ..) hjoining timeout now

end FgMpi.Threads.Lifecycle
