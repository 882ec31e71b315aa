import FgMpi.Threads.Lifecycle

/-! Which thread waits for which, until one of them is freed. -/

namespace FgMpi.Threads.Joining
open Machine.Checked Machine.Placement
open Threads.Scheduler Threads.Places Threads.Lifecycle
open Function (update update_apply update_of_ne update_self)

variable {place : Tid → Place} {s s' : State} {c t u : Tid}

theorem freed_inv (h : Inv place s) (hu : place u = .exited)
    (hthread : ∀ x, x ≠ u → place x ≠ .absent → s'.thread x =
      { s.thread x with joining := if (s.thread x).joining = some u then none else (s.thread x).joining })
    (hlist : s'.threadlist = s.threadlist.erase u) (hmax : s'.maxTid = s.maxTid)
    (hcurrent : s'.current = s.current) (hdaemons : s'.numDaemonThreads = s.numDaemonThreads)
    (hsuspended : s'.numSuspendedThreads = s.numSuspendedThreads)
    (hrunnable : s'.numRunnableThreads = s.numRunnableThreads)
    (hzombie : s'.numZombieThreads = s.numZombieThreads - 1)
    (hrunlist : s'.runlist = s.runlist) (hblocklist : s'.blocklist = s.blocklist) (hsleepq : s'.sleepq = s.sleepq) :
    Inv (update place u .absent) s' := by
  have hin : u ∈ s.threadlist := (h.present u).mpr (by simp [hu])
  have hne : ∀ x, update place u .absent x ≠ .absent → x ≠ u := by
    intro x hx heq
    rw [heq, update_self] at hx
    exact hx rfl
  have hold : ∀ x, update place u .absent x ≠ .absent → place x ≠ .absent := by
    intro x hx
    have hxu := hne x hx
    rw [update_of_ne hxu] at hx
    exact hx
  have hcensus : ∀ state, census (update place u .absent) s' state +
      (if ThreadState.zombie = state then 1 else 0) = census place s state := by
    intro state
    unfold census
    rw [hlist, countP_update_of_notMem (fun p : Place => decide (p.state = state)) h.nodup.not_mem_erase .absent,
      (List.perm_cons_erase hin).countP_eq, List.countP_cons, hu]
    cases state <;> rfl
  constructor
  · rw [hlist]
    exact h.nodup.erase u
  · intro x
    rw [hlist, h.nodup.mem_erase_iff, h.present]
    by_cases hx : x = u
    · rw [hx, update_self]
      simp
    · rw [update_of_ne hx]
      exact and_iff_right hx
  · intro x
    rw [hcurrent]
    exact h.current_kept (by simp [hu]) (by simp) x
  · rw [hrunlist]
    exact h.runlist.other (by simp [hu]) (by simp)
  · rw [hblocklist]
    exact h.blocklist.other (by simp [hu]) (by simp)
  · rw [hsleepq]
    exact h.sleepq.other (by simp [hu]) (by simp)
  · intro x hx
    rw [hthread x (hne x hx) (hold x hx), update_of_ne (hne x hx)]
    exact h.state x (hold x hx)
  · intro x hx
    rw [hthread x (hne x hx) (hold x hx), update_of_ne (hne x hx)]
    exact h.sleep x (hold x hx)
  · obtain ⟨hnsuspended, hnrunnable, hnzombie⟩ := h.counts
    constructor
    · have hsame := hcensus .suspended
      rw [if_neg (by simp)] at hsame
      omega
    · have hsame := hcensus .runnable
      rw [if_neg (by simp)] at hsame
      omega
    · have hless := hcensus .zombie
      rw [if_pos rfl] at hless
      omega
  · rw [hdaemons]
    exact h.noDaemons
  · intro x hx
    rw [hthread x (hne x hx) (hold x hx)]
    exact h.daemon x (hold x hx)
  · intro x hx
    rw [hthread x (hne x hx) (hold x hx)]
    exact h.joinable x (hold x hx)
  · intro x hx
    rw [hmax] at hx
    have habsent := h.fresh x hx
    by_cases hxu : x = u
    · rw [hxu, update_self]
    · rw [update_of_ne hxu]
      exact habsent
  · intro x y hx hjoining
    rw [hthread x (hne x hx) (hold x hx)] at hjoining
    have hother : (s.thread x).joining ≠ some u := by
      intro heq
      simp [heq] at hjoining
    simp only [if_neg hother] at hjoining
    obtain ⟨hy, hjoined, hplace⟩ := h.joining x y (hold x hx) hjoining
    have hyu : y ≠ u := fun heq => hother (heq ▸ hjoining)
    rw [update_of_ne hyu, update_of_ne (hne x hx), hthread y hyu hy]
    exact ⟨hy, hjoined, hplace⟩
  · intro x y hy hexited hjoined
    have hyu := hne y hy
    rw [hthread y hyu (hold y hy)] at hjoined
    rw [update_of_ne hyu] at hexited
    obtain ⟨hx, hjoining⟩ := h.joined x y (hold y hy) hexited hjoined
    have hxu : x ≠ u := by
      intro heq
      subst heq
      have hplace := (h.joining x y hx hjoining).2.2
      rw [hu] at hplace
      exact absurd hplace (by simp)
    have hother : (s.thread x).joining ≠ some u := by
      rw [hjoining]
      exact fun heq => hyu (Option.some.inj heq)
    rw [update_of_ne hxu, hthread x hxu hx]
    refine ⟨hx, ?_⟩
    simp only [if_neg hother]
    exact hjoining
  · intro x hx
    rw [hthread x (hne x hx) (hold x hx)]
    exact h.waited x (hold x hx)

theorem freed_waits (hw : Waits place s)
    (hthread : ∀ x, x ≠ u → place x ≠ .absent → s'.thread x =
      { s.thread x with joining := if (s.thread x).joining = some u then none else (s.thread x).joining }) :
    Waits (update place u .absent) s' := by
  intro x y hx hjoining hy
  have hxu : x ≠ u := by
    intro heq
    rw [heq, update_self] at hx
    exact hx rfl
  have hyu : y ≠ u := by
    intro heq
    rw [heq, update_self] at hy
    exact nomatch hy
  rw [update_of_ne hxu] at hx ⊢
  rw [update_of_ne hyu] at hy
  rw [hthread x hxu hx] at hjoining
  apply hw x y hx _ hy
  by_cases hother : (s.thread x).joining = some u
  · simp [hother] at hjoining
  · simp only [if_neg hother] at hjoining
    exact hjoining

def freed (t : Tid) (s : State) : State :=
  { s.set t { s.thread t with state := .ghost } with
    threadlist := s.threadlist.erase t
    numZombieThreads := s.numZombieThreads - 1 }

theorem freeThread_eq (t : Tid) (s : State) :
    freeThread t s = if (s.thread t).state = .zombie then .ok (freed t s) else .error .notZombie := by
  unfold freeThread
  rw [require_bind]
  rfl

theorem freed_thread {x : Tid} (hx : x ≠ t) : (freed t s).thread x = s.thread x := update_of_ne hx _ _

theorem waiting_inv (h : Inv place s) (hc : place c = .suspended) (hnone : (s.thread c).joining = none)
    (ht : place t ≠ .absent) (hjoinable : (s.thread t).joinable = true)
    (hfree : (s.thread t).joinThread = none) {thread : Tid → Thread}
    (hthread : ∀ x, thread x = { s.thread x with
      joinThread := if x = t then some c else (s.thread x).joinThread
      joining := if x = c then some t else (s.thread x).joining }) :
    Inv place { s with thread := thread } := by
  constructor
  · exact h.nodup
  · exact h.present
  · exact h.current
  · exact h.runlist
  · exact h.blocklist
  · exact h.sleepq
  · intro x hx
    show (thread x).state = _
    rw [hthread]
    exact h.state x hx
  · intro x hx
    show (thread x).sleep ≠ none ↔ _
    rw [hthread]
    exact h.sleep x hx
  · exact ⟨h.counts.suspended, h.counts.runnable, h.counts.zombie⟩
  · exact h.noDaemons
  · intro x hx
    show (thread x).daemon = _
    rw [hthread]
    exact h.daemon x hx
  · intro x hx
    show (thread x).joinable = false → _
    rw [hthread]
    exact h.joinable x hx
  · exact h.fresh
  · intro x y hx hjoining
    replace hjoining : (thread x).joining = some y := hjoining
    show _ ∧ (thread y).joinThread = _ ∧ _
    rw [hthread] at hjoining ⊢
    by_cases hxc : x = c
    · subst hxc
      simp only [if_true] at hjoining
      obtain rfl : t = y := Option.some.inj hjoining
      simp only [if_true]
      exact ⟨ht, trivial, .inr hc⟩
    · simp only [if_neg hxc] at hjoining
      obtain ⟨hy, hjoined, hplace⟩ := h.joining x y hx hjoining
      have hyt : y ≠ t := by
        intro heq
        rw [heq, hfree] at hjoined
        exact nomatch hjoined
      simp only [if_neg hyt]
      exact ⟨hy, hjoined, hplace⟩
  · intro x y hy hexited hjoined
    replace hjoined : (thread y).joinThread = some x := hjoined
    show _ ∧ (thread x).joining = _
    rw [hthread] at hjoined ⊢
    by_cases hyt : y = t
    · simp only [if_pos hyt] at hjoined
      obtain rfl : c = x := Option.some.inj hjoined
      simp only [if_true]
      exact ⟨by simp [hc], congrArg some hyt.symm⟩
    · simp only [if_neg hyt] at hjoined
      obtain ⟨hx, hjoining⟩ := h.joined x y hy hexited hjoined
      have hxc : x ≠ c := by
        intro heq
        rw [heq, hnone] at hjoining
        exact nomatch hjoining
      simp only [if_neg hxc]
      exact ⟨hx, hjoining⟩
  · intro x hx
    show (thread x).joinThread ≠ none → (thread x).joinable = true
    rw [hthread]
    by_cases hxt : x = t
    · rw [hxt]
      exact fun _ => hjoinable
    · simp only [if_neg hxt]
      exact h.waited x hx

theorem waiting_waits (hw : Waits place s) (hlive : place t ≠ .exited) {thread : Tid → Thread}
    (hthread : ∀ x, thread x = { s.thread x with
      joinThread := if x = t then some c else (s.thread x).joinThread
      joining := if x = c then some t else (s.thread x).joining }) :
    Waits place { s with thread := thread } := by
  intro x y hx hjoining hy
  replace hjoining : (thread x).joining = some y := hjoining
  rw [hthread] at hjoining
  by_cases hxc : x = c
  · simp only [if_pos hxc] at hjoining
    obtain rfl : t = y := Option.some.inj hjoining
    exact absurd hy hlive
  · simp only [if_neg hxc] at hjoining
    exact hw x y hx hjoining hy

def claimed (t c : Tid) (s : State) : State := s.set t { s.thread t with joinThread := some c }

def waiting (t c : Tid) (s : State) : State :=
  (claimed t c s).set c { (claimed t c s).thread c with joining := some t }

theorem waiting_thread (x : Tid) : ((suspendedState c (waiting t c s)).thread x) =
    { (suspendedState c s).thread x with
      joinThread := if x = t then some c else ((suspendedState c s).thread x).joinThread
      joining := if x = c then some t else ((suspendedState c s).thread x).joining } := by
  simp only [suspendedState, waiting, claimed, State.set, leave, update_apply]
  by_cases hxc : x = c
  · by_cases hct : c = t
    · simp [hxc, hct]
    · simp [hxc, hct]
  · by_cases hxt : x = t
    · simp [hxt, hxt ▸ hxc]
    · simp [hxc, hxt]

theorem threadJoin_proper (hproper : Proper s) (hcurrent : s.current = some c) (ht : t ∈ s.threadlist) :
    ∃ s', threadJoin c t s = .ok s' ∧ Proper s' := by
  obtain ⟨place, h, hw⟩ := hproper
  have hc := (h.current c).mp hcurrent
  have hpresent := (h.present t).mp ht
  have hstate := h.state t hpresent
  have hghost : (s.thread t).state ≠ .ghost := by
    rw [hstate]
    exact fun heq => hpresent (state_eq_ghost.mp heq)
  have hown : (claimed t c s).thread t = { s.thread t with joinThread := some c } := update_self ..
  unfold threadJoin
  by_cases hjoinable : (s.thread t).joinable = false
  · exact ⟨s, if_pos hjoinable, place, h, hw⟩
  · rw [if_neg hjoinable, require_bind, if_pos hghost]
    by_cases hfree : (s.thread t).joinThread = none
    · rw [if_neg (not_not.mpr hfree)]
      show ∃ s', (if ((claimed t c s).thread t).state = .zombie then freeThread t (claimed t c s)
        else threadSuspendSelf c 0 0 (waiting t c s)) = .ok s' ∧ _
      rw [hown]
      by_cases hzombie : (s.thread t).state = .zombie
      · have hexited : place t = .exited := by
          rw [hstate] at hzombie
          cases hplace : place t <;> simp_all [Place.state]
        have hnobody : ∀ x, place x ≠ .absent → (s.thread x).joining ≠ some t := by
          intro x hx hjoining
          have hjoined := (h.joining x t hx hjoining).2.1
          rw [hfree] at hjoined
          cases hjoined
        have hthread : ∀ x, x ≠ t → place x ≠ .absent → (freed t (claimed t c s)).thread x =
            { s.thread x with joining := if (s.thread x).joining = some t then none else (s.thread x).joining } := by
          intro x hxt hx
          rw [freed_thread hxt, if_neg (hnobody x hx)]
          exact update_of_ne hxt _ _
        rw [if_pos hzombie, freeThread_eq, hown, if_pos hzombie]
        exact ⟨_, rfl, _, freed_inv h hexited hthread rfl rfl rfl rfl rfl rfl rfl rfl rfl rfl, freed_waits hw hthread⟩
      · have hlive : place t ≠ .exited := by
          intro hexited
          rw [hexited] at hstate
          exact hzombie hstate
        have hplace : update place c .suspended t ≠ .absent ∧ update place c .suspended t ≠ .exited := by
          by_cases htc : t = c
          · simp [htc]
          · rw [update_of_ne htc]
            exact ⟨hpresent, hlive⟩
        have hnone : ((suspendedState c s).thread c).joining = none := by
          rw [suspendedState_joining]
          exact h.joining_none (by simp [hc]) (by simp [hc]) (by simp [hc])
        have hinv : Inv (update place c .suspended) (suspendedState c (waiting t c s)) := by
          apply waiting_inv (suspendedState_inv h hc) (update_self ..) hnone hplace.1 _ _ waiting_thread
          · rw [suspendedState_thread]
            exact eq_true_of_ne_false hjoinable
          · rw [suspendedState_thread]
            exact hfree
        have hwaits : Waits (update place c .suspended) (suspendedState c (waiting t c s)) :=
          waiting_waits (suspendedState_waits hw hc) hplace.2 waiting_thread
        rw [if_neg hzombie, threadSuspendSelf_eq hinv.sane, if_pos rfl]
        exact ⟨_, rfl, _, hinv, hwaits⟩
    · exact ⟨s, if_pos hfree, place, h, hw⟩

def exitedState (c : Tid) (s : State) : State :=
  { (leave s).set c { s.thread c with state := .zombie } with
    numRunnableThreads := s.numRunnableThreads - 1
    numDaemonThreads := if (s.thread c).daemon then s.numDaemonThreads - 1 else s.numDaemonThreads
    numZombieThreads := s.numZombieThreads + 1 }

theorem exitedState_inv (h : Inv place s) (hc : place c = .running) :
    Inv (update place c .exited) (exitedState c s) := by
  have hsleep : (s.thread c).sleep = none := h.sleep_none (by simp [hc]) (by simp [hc])
  have hdaemons : (exitedState c s).numDaemonThreads = s.numDaemonThreads := by
    show (if (s.thread c).daemon then s.numDaemonThreads - 1 else s.numDaemonThreads) = _
    rw [h.daemon c (by simp [hc])]
    rfl
  refine h.move (by simp [hc]) (by simp [hc]) (by simp) rfl rfl ?_ rfl rfl hdaemons ?_ ?_ ?_ ?_ ?_ ?_
  · exact iff_of_false (not_not.mpr hsleep) (by simp)
  · exact h.current_left hc (by simp)
  · exact h.runlist.other (by simp [hc]) (by simp)
  · exact h.blocklist.other (by simp [hc]) (by simp)
  · exact h.sleepq.other (by simp [hc]) (by simp)
  · refine h.counts_move (by simp [hc]) rfl ?_ ?_ ?_ <;> simp [hc, Place.state, exitedState, leave, State.set]
  · intro hjoining
    exact absurd (h.joining_none (by simp [hc]) (by simp [hc]) (by simp [hc])) hjoining

theorem exitedState_joining (x : Tid) : ((exitedState c s).thread x).joining = (s.thread x).joining := by
  show (update s.thread c { s.thread c with state := .zombie } x).joining = _
  by_cases hx : x = c
  · rw [hx, update_self]
  · rw [update_of_ne hx]

theorem exited_waits (hw : Waits place s) {place' : Tid → Place} (hold : ∀ x, place' x ≠ .absent → place x ≠ .absent)
    (hexited : ∀ y, place' y = .exited → y = c ∨ place y = .exited) (hready : ∀ x, place x = .ready → place' x = .ready)
    (hjoining : ∀ x, (s'.thread x).joining = (s.thread x).joining)
    (hwaiter : ∀ x, place x ≠ .absent → (s.thread x).joining = some c → place' x = .ready) : Waits place' s' := by
  intro x y hx hjoins hy
  rw [hjoining] at hjoins
  rcases hexited y hy with rfl | hdead
  · exact hwaiter x (hold x hx) hjoins
  · exact hready x (hw x y (hold x hx) hjoins hdead)

def letGo (c : Tid) (s : State) : Except Fault State :=
  if (s.thread c).joinable then
    match (s.thread c).joinThread with
    | none => .ok (exitedState c s)
    | some joiner => threadResume joiner (exitedState c s)
  else .ok (exitedState c s)

theorem threadExit_eq (hsane : Sane s) : threadExit c s = (letGo c s >>= fun s' => do
    sanityCheckThreadcounts s'
    if (s.thread c).joinable = false ∧ c ≠ mainThread then freeThread c s' else .ok s') := by
  unfold threadExit letGo exitedState
  rw [sanity_ok hsane]
  dsimp only [bind, Except.bind]
  cases (s.thread c).joinable
  · rfl
  · cases (s.thread c).joinThread <;> rfl

theorem letGo_proper (h : Inv place s) (hw : Waits place s) (hc : place c = .running) :
    ∃ s', letGo c s = .ok s' ∧ Proper s' := by
  have hinv := exitedState_inv h hc
  have hpresent : place c ≠ .absent := by simp [hc]
  have hmoved : ∀ x, place x = .ready → update place c .exited x = .ready := by
    intro x hx
    have hxc : x ≠ c := by
      intro heq
      rw [heq, hc] at hx
      exact nomatch hx
    rw [update_of_ne hxc]
    exact hx
  have hold : ∀ x, update place c .exited x ≠ .absent → place x ≠ .absent := by
    intro x hx
    by_cases hxc : x = c
    · rw [hxc]
      exact hpresent
    · rw [update_of_ne hxc] at hx
      exact hx
  have hdead : ∀ y, update place c .exited y = .exited → y = c ∨ place y = .exited := by
    intro y hy
    by_cases hyc : y = c
    · exact .inl hyc
    · rw [update_of_ne hyc] at hy
      exact .inr hy
  cases hjoined : (s.thread c).joinThread with
  | none =>
    have hrest : letGo c s = .ok (exitedState c s) := by
      unfold letGo
      rw [hjoined]
      split <;> rfl
    refine ⟨_, hrest, _, hinv, exited_waits hw hold hdead hmoved exitedState_joining ?_⟩
    intro x hx hjoining
    rw [(h.joining x c hx hjoining).2.1] at hjoined
    exact nomatch hjoined
  | some joiner =>
    obtain ⟨hjoiner, hjoining⟩ := h.joined joiner c hpresent (by simp [hc]) hjoined
    have hplace := (h.joining joiner c hjoiner hjoining).2.2
    have hne : joiner ≠ c := by
      intro heq
      rw [heq, hc] at hplace
      exact absurd hplace (by simp)
    have hsame : update place c .exited joiner = place joiner := update_of_ne hne _ _
    have hjoinable : (s.thread c).joinable = true := by
      apply h.waited c hpresent
      rw [hjoined]
      exact Option.some_ne_none joiner
    obtain ⟨s', q, hresume, hinv', hq, hkept⟩ := threadResume_inv hinv (by rw [hsame]; exact hjoiner)
    have hready : q = .ready := by
      rw [hsame] at hq
      rcases hq with hq | ⟨hq, hnot⟩
      · exact hq
      · rcases hplace with hplace | hplace
        · exact hq.trans hplace
        · exact absurd hplace hnot
    subst hready
    refine ⟨s', ?_, _, hinv', ?_⟩
    · unfold letGo
      rw [if_pos hjoinable, hjoined]
      exact hresume
    · apply exited_waits (c := c) hw
      · intro x hx
        by_cases hxj : x = joiner
        · rw [hxj]
          exact hjoiner
        · rw [update_of_ne hxj] at hx
          exact hold x hx
      · intro y hy
        have hyj : y ≠ joiner := by
          intro heq
          rw [heq, update_self] at hy
          exact nomatch hy
        rw [update_of_ne hyj] at hy
        exact hdead y hy
      · intro x hx
        by_cases hxj : x = joiner
        · rw [hxj, update_self]
        · rw [update_of_ne hxj]
          exact hmoved x hx
      · intro x
        rw [hkept, exitedState_joining]
      · intro x hx hjoins
        have hboth := (h.joining x c hx hjoins).2.1.symm.trans hjoined
        rw [Option.some.inj hboth, update_self]

theorem threadExit_proper (hproper : Proper s) (hcurrent : s.current = some c) :
    ∃ s', threadExit c s = .ok s' ∧ Proper s' := by
  obtain ⟨place, h, hw⟩ := hproper
  have hc := (h.current c).mp hcurrent
  obtain ⟨s', hrest, hproper⟩ := letGo_proper h hw hc
  have hmain : ¬ ((s.thread c).joinable = false ∧ c ≠ mainThread) :=
    fun hfree => hfree.2 (h.joinable c (by simp [hc]) hfree.1)
  have hsane : Sane s' := by
    obtain ⟨place', h', _⟩ := hproper
    exact h'.sane
  refine ⟨s', ?_, hproper⟩
  rw [threadExit_eq h.sane, hrest]
  show (sanityCheckThreadcounts s' >>= _) = _
  rw [sanity_ok hsane]
  exact if_neg hmain

/-- The scheduler leaves the loop, or the thread at the head of the run list is not in `thread_join` of one that
has not exited. -/
def JoinsDead (s : State) : Prop :=
  (s.numSuspendedThreads = 0 ∧ s.numRunnableThreads = s.numDaemonThreads) ∨
    ∀ t ∈ s.runlist.head?, ∀ dead ∈ (s.thread t).joining, (s.thread dead).state = .zombie

instance (s : State) : Decidable (JoinsDead s) := inferInstanceAs (Decidable (_ ∨ _))

def picked (t : Tid) (rest : List Tid) (s : State) : State := { s with current := some t, runlist := rest }

def returned (t : Tid) (rest : List Tid) (s : State) : State :=
  (picked t rest s).set t { s.thread t with joining := none }

theorem pick_eq (h : Inv place s) {rest : List Tid} (hrun : s.runlist = t :: rest)
    (hgo : ¬ (s.numSuspendedThreads = 0 ∧ s.numRunnableThreads = s.numDaemonThreads)) :
    pick s = match (s.thread t).joining with
      | none => .ok (picked t rest s)
      | some dead => freeThread dead (returned t rest s) := by
  have ht : place t = .ready := h.runlist.mem.mp (by simp [hrun])
  have hsleep : (s.thread t).sleep = none := h.sleep_none (by simp [ht]) (by simp [ht])
  have hsane : Sane (picked t rest s) := h.sane
  unfold pick
  rw [if_neg hgo, hrun]
  show (require ((s.thread t).sleep = none) .pickedSleeping >>= fun _ =>
    sanityCheckThreadcounts (picked t rest s) >>= _) = _
  rw [require_bind, if_pos hsleep, sanity_ok hsane]
  rfl

theorem returned_state (rest : List Tid) (x : Tid) : ((returned t rest s).thread x).state = (s.thread x).state := by
  show (update s.thread t { s.thread t with joining := none } x).state = _
  by_cases hx : x = t
  · rw [hx, update_self]
  · rw [update_of_ne hx]

theorem picked_inv (h : Inv place s) {rest : List Tid} (hrun : s.runlist = t :: rest) (hcurrent : s.current = none)
    (hjoining : (s.thread t).joining = none) : Inv (update place t .running) (picked t rest s) := by
  have ht : place t = .ready := h.runlist.mem.mp (by simp [hrun])
  refine h.shift (by simp [ht]) (by simp [ht]) (by simp) (by rw [ht]; rfl) (by simp [ht]) (by simp) rfl rfl rfl rfl rfl rfl rfl
    ?_ ?_ ?_ ?_ ?_
  · intro x
    by_cases hx : x = t
    · rw [hx, update_self]
      exact iff_of_true rfl rfl
    · rw [update_of_ne hx, ← h.current, hcurrent]
      exact iff_of_false (fun heq => hx (Option.some.inj heq).symm) (fun hnone => nomatch hnone)
  · have hlist := h.runlist
    rw [hrun] at hlist
    exact hlist.tail (by simp)
  · exact h.blocklist.other (by simp [ht]) (by simp)
  · exact h.sleepq.other (by simp [ht]) (by simp)
  · exact fun hne => absurd hjoining hne

theorem picked_waits (hw : Waits place s) (rest : List Tid)
    (hjoining : (s.thread t).joining = none) : Waits (update place t .running) (picked t rest s) := by
  intro x y hx hjoins hy
  replace hjoins : (s.thread x).joining = some y := hjoins
  have hxt : x ≠ t := by
    intro heq
    rw [heq, hjoining] at hjoins
    exact nomatch hjoins
  have hyt : y ≠ t := by
    intro heq
    rw [heq, update_self] at hy
    exact nomatch hy
  rw [update_of_ne hxt] at hx ⊢
  rw [update_of_ne hyt] at hy
  exact hw x y hx hjoins hy

theorem pick_proper (hproper : Proper s) (hcurrent : s.current = none) (hjoins : JoinsDead s) :
    ∃ s', pick s = .ok s' ∧ Proper s' := by
  obtain ⟨place, h, hw⟩ := hproper
  by_cases hend : s.numSuspendedThreads = 0 ∧ s.numRunnableThreads = s.numDaemonThreads
  · exact ⟨_, if_pos hend, place, h.flags s.progressThreadRunning true, hw⟩
  · cases hrun : s.runlist with
    | nil =>
      refine ⟨s, ?_, place, h, hw⟩
      unfold pick
      rw [if_neg hend, hrun]
    | cons t rest =>
      rw [pick_eq h hrun hend]
      have ht : place t = .ready := h.runlist.mem.mp (by simp [hrun])
      cases hjoining : (s.thread t).joining with
      | none => exact ⟨_, rfl, _, picked_inv h hrun hcurrent hjoining, picked_waits hw rest hjoining⟩
      | some dead =>
        have hzombie : (s.thread dead).state = .zombie := by
          apply (hjoins.resolve_left hend) t (by simp [hrun]) dead
          rw [hjoining]
          rfl
        obtain ⟨hpresent, hjoined, _⟩ := h.joining t dead (by simp [ht]) hjoining
        have hexited : place dead = .exited := by
          rw [h.state dead hpresent] at hzombie
          cases hplace : place dead <;> simp_all [Place.state]
        have hne : t ≠ dead := by
          intro heq
          rw [heq, hexited] at ht
          cases ht
        -- the thread frees the other one before it counts as running
        let back : State := { freed dead (returned t rest s) with current := s.current, runlist := s.runlist }
        have hthread : ∀ x, x ≠ dead → place x ≠ .absent → back.thread x =
            { s.thread x with joining := if (s.thread x).joining = some dead then none else (s.thread x).joining } := by
          intro x hx hin
          show (freed dead (returned t rest s)).thread x = _
          rw [freed_thread hx]
          show update s.thread t { s.thread t with joining := none } x = _
          by_cases hxt : x = t
          · rw [hxt, update_self, if_pos hjoining]
          · have hother : (s.thread x).joining ≠ some dead := by
              intro heq
              have hboth := (h.joining x dead hin heq).2.1.symm.trans hjoined
              exact hxt (Option.some.inj hboth)
            rw [update_of_ne hxt, if_neg hother]
        have hinv : Inv (update place dead .absent) back :=
          freed_inv h hexited hthread rfl rfl rfl rfl rfl rfl rfl rfl rfl rfl
        have hwaits : Waits (update place dead .absent) back := freed_waits hw hthread
        have hnone : (back.thread t).joining = none := by
          rw [hthread t hne (by simp [ht]), if_pos hjoining]
        refine ⟨freed dead (returned t rest s), ?_, _, picked_inv hinv hrun hcurrent hnone,
          picked_waits hwaits rest hnone⟩
        show freeThread dead (returned t rest s) = _
        rw [freeThread_eq, returned_state, if_pos hzombie]

theorem joinsDead_of_pick (hproper : Proper s) (hok : pick s = .ok s') : JoinsDead s := by
  obtain ⟨place, h, _⟩ := hproper
  by_cases hend : s.numSuspendedThreads = 0 ∧ s.numRunnableThreads = s.numDaemonThreads
  · exact .inl hend
  · refine .inr ?_
    intro t ht dead hdead
    obtain ⟨rest, hrun⟩ : ∃ rest, s.runlist = t :: rest := List.head?_eq_some_iff.mp ht
    rw [pick_eq h hrun hend, show (s.thread t).joining = some dead from hdead] at hok
    replace hok : freeThread dead (returned t rest s) = .ok s' := hok
    rw [freeThread_eq, returned_state] at hok
    by_contra hlive
    rw [if_neg hlive] at hok
    exact nomatch hok

end FgMpi.Threads.Joining
