import FgMpi.Machine.Placement
import FgMpi.Threads.Scheduler

/-! Where the threads are. -/

namespace FgMpi.Threads.Places
open Machine.Checked Machine.Placement
open Threads.Scheduler
open Function (update update_eq_self update_idem update_of_ne update_self)

inductive Place
  | absent
  | running
  | ready
  | blocked
  | sleeping
  | suspended
  | exited
deriving Repr, DecidableEq

def Place.state : Place → ThreadState
  | .absent => .ghost
  | .running | .ready | .blocked => .runnable
  | .sleeping | .suspended => .suspended
  | .exited => .zombie

theorem state_eq_ghost {p : Place} : p.state = .ghost ↔ p = .absent := by
  cases p <;> simp [Place.state]

def census (place : Tid → Place) (s : State) (state : ThreadState) : Nat :=
  s.threadlist.countP fun t => (place t).state = state

structure Counts (place : Tid → Place) (s : State) : Prop where
  suspended : s.numSuspendedThreads = census place s .suspended
  runnable : s.numRunnableThreads = census place s .runnable
  zombie : s.numZombieThreads = census place s .zombie

structure Inv (place : Tid → Place) (s : State) : Prop where
  nodup : s.threadlist.Nodup
  present : ∀ t, t ∈ s.threadlist ↔ place t ≠ .absent
  current : ∀ t, s.current = some t ↔ place t = .running
  runlist : Holds place .ready s.runlist
  blocklist : Holds place .blocked (s.blocklist.map Prod.snd)
  sleepq : Holds place .sleeping s.sleepq
  state : ∀ t, place t ≠ .absent → (s.thread t).state = (place t).state
  sleep : ∀ t, place t ≠ .absent → ((s.thread t).sleep ≠ none ↔ place t = .sleeping)
  counts : Counts place s
  noDaemons : s.numDaemonThreads = 0
  daemon : ∀ t, place t ≠ .absent → (s.thread t).daemon = false
  joinable : ∀ t, place t ≠ .absent → (s.thread t).joinable = false → t = mainThread
  fresh : ∀ t, s.maxTid ≤ t → place t = .absent
  joining : ∀ t u, place t ≠ .absent → (s.thread t).joining = some u →
    place u ≠ .absent ∧ (s.thread u).joinThread = some t ∧ (place t = .ready ∨ place t = .suspended)
  joined : ∀ t u, place u ≠ .absent → place u ≠ .exited → (s.thread u).joinThread = some t →
    place t ≠ .absent ∧ (s.thread t).joining = some u
  waited : ∀ t, place t ≠ .absent → (s.thread t).joinThread ≠ none → (s.thread t).joinable = true

def Waits (place : Tid → Place) (s : State) : Prop :=
  ∀ t u, place t ≠ .absent → (s.thread t).joining = some u → place u = .exited → place t = .ready

def Proper (s : State) : Prop := ∃ place, Inv place s ∧ Waits place s

section Sanity
variable {place : Tid → Place} {s s' : State}

theorem countP_states {l : List Tid} (h : ∀ t ∈ l, place t ≠ .absent) :
    (l.countP fun t => (place t).state = .runnable) + (l.countP fun t => (place t).state = .suspended) +
      (l.countP fun t => (place t).state = .zombie) = l.length := by
  induction l with
  | nil => rfl
  | cons t l ih =>
    have hrest := ih fun x hx => h x (List.mem_cons_of_mem t hx)
    have ht := h t List.mem_cons_self
    rw [List.countP_cons, List.countP_cons, List.countP_cons, List.length_cons]
    cases hstate : (place t).state with
    | ghost => exact absurd (state_eq_ghost.mp hstate) ht
    | _ =>
      simp only [reduceCtorEq, decide_true, decide_false, if_true, Bool.false_eq_true, if_false]
      omega

theorem Inv.sane (h : Inv place s) : Sane s := by
  obtain ⟨hsuspended, hrunnable, hzombie⟩ := h.counts
  have hsum := countP_states (l := s.threadlist) fun t ht => (h.present t).mp ht
  unfold census at hsuspended hrunnable hzombie
  refine ⟨?_, ?_, ?_, ?_, ?_⟩
  · rw [h.noDaemons]
  · rw [hsuspended]
    omega
  · rw [hrunnable]
    omega
  · rw [hzombie]
    omega
  · rw [hsuspended, hrunnable, hzombie]
    omega

theorem sanity_ok (h : Sane s) : sanityCheckThreadcounts s = .ok () := if_pos h

theorem census_update (hnodup : s.threadlist.Nodup) {t : Tid} (ht : t ∈ s.threadlist) (q : Place)
    (hlist : s'.threadlist = s.threadlist) (state : ThreadState) :
    census (update place t q) s' state + (if (place t).state = state then 1 else 0) =
      census place s state + (if q.state = state then 1 else 0) := by
  unfold census
  rw [hlist]
  have hupdate : (s.threadlist.countP fun x => decide ((update place t q x).state = state)) + _ = _ :=
    countP_update (fun p : Place => decide (p.state = state)) hnodup ht q
  simpa using hupdate

end Sanity

section Moves
variable {place : Tid → Place} {s s' : State} {t : Tid} {q : Place}

theorem Inv.sleep_none (h : Inv place s) (ht : place t ≠ .absent) (hq : place t ≠ .sleeping) :
    (s.thread t).sleep = none := by
  by_contra hne
  exact hq ((h.sleep t ht).mp hne)

theorem Inv.counts_move (h : Inv place s) (ht : place t ≠ .absent) (hlist : s'.threadlist = s.threadlist)
    (hsuspended : s'.numSuspendedThreads + (if (place t).state = .suspended then 1 else 0) =
      s.numSuspendedThreads + (if q.state = .suspended then 1 else 0))
    (hrunnable : s'.numRunnableThreads + (if (place t).state = .runnable then 1 else 0) =
      s.numRunnableThreads + (if q.state = .runnable then 1 else 0))
    (hzombie : s'.numZombieThreads + (if (place t).state = .zombie then 1 else 0) =
      s.numZombieThreads + (if q.state = .zombie then 1 else 0)) : Counts (update place t q) s' := by
  have hcensus : ∀ state, (census (update place t q) s' state : Int) + (if (place t).state = state then 1 else 0) =
      census place s state + (if q.state = state then 1 else 0) :=
    fun state => by exact_mod_cast census_update h.nodup ((h.present t).mpr ht) q hlist state
  obtain ⟨hnsuspended, hnrunnable, hnzombie⟩ := h.counts
  constructor
  · have hmoved := hcensus .suspended
    omega
  · have hmoved := hcensus .runnable
    omega
  · have hmoved := hcensus .zombie
    omega

theorem Inv.move (h : Inv place s) (ht : place t ≠ .absent) (hlive : place t ≠ .exited) (hq : q ≠ .absent)
    {th : Thread} (hthread : s'.thread = update s.thread t th)
    (hth : th = { s.thread t with state := q.state, sleep := th.sleep })
    (hsleep : th.sleep ≠ none ↔ q = .sleeping)
    (hlist : s'.threadlist = s.threadlist) (hmax : s'.maxTid = s.maxTid)
    (hdaemons : s'.numDaemonThreads = s.numDaemonThreads)
    (hcurrent : ∀ x, s'.current = some x ↔ update place t q x = .running)
    (hrunlist : Holds (update place t q) .ready s'.runlist)
    (hblocklist : Holds (update place t q) .blocked (s'.blocklist.map Prod.snd))
    (hsleepq : Holds (update place t q) .sleeping s'.sleepq)
    (hcounts : Counts (update place t q) s')
    (hjoining : (s.thread t).joining ≠ none → q = .ready ∨ q = .suspended) :
    Inv (update place t q) s' := by
  have hpresent : ∀ x, update place t q x ≠ .absent ↔ place x ≠ .absent := by
    intro x
    by_cases hx : x = t
    · rw [hx, update_self]
      exact iff_of_true hq ht
    · rw [update_of_ne hx]
  have hother : ∀ x, x ≠ t → s'.thread x = s.thread x := by
    intro x hx
    rw [hthread, update_of_ne hx]
  have hown : s'.thread t = { s.thread t with state := q.state, sleep := th.sleep } := by
    rw [hthread, update_self]
    exact hth
  have hdaemon : ∀ x, (s'.thread x).daemon = (s.thread x).daemon := by
    intro x
    by_cases hx : x = t
    · rw [hx, hown]
    · rw [hother x hx]
  have hjoinable : ∀ x, (s'.thread x).joinable = (s.thread x).joinable := by
    intro x
    by_cases hx : x = t
    · rw [hx, hown]
    · rw [hother x hx]
  have hjoin : ∀ x, (s'.thread x).joining = (s.thread x).joining := by
    intro x
    by_cases hx : x = t
    · rw [hx, hown]
    · rw [hother x hx]
  have hjoinThread : ∀ x, (s'.thread x).joinThread = (s.thread x).joinThread := by
    intro x
    by_cases hx : x = t
    · rw [hx, hown]
    · rw [hother x hx]
  constructor
  · rw [hlist]
    exact h.nodup
  · intro x
    rw [hlist, hpresent, h.present]
  · exact hcurrent
  · exact hrunlist
  · exact hblocklist
  · exact hsleepq
  · intro x hx
    by_cases hxt : x = t
    · rw [hxt, update_self, hown]
    · rw [update_of_ne hxt, hother x hxt]
      exact h.state x ((hpresent x).mp hx)
  · intro x hx
    by_cases hxt : x = t
    · rw [hxt, update_self, hown]
      exact hsleep
    · rw [update_of_ne hxt, hother x hxt]
      exact h.sleep x ((hpresent x).mp hx)
  · exact hcounts
  · rw [hdaemons]
    exact h.noDaemons
  · intro x hx
    rw [hdaemon]
    exact h.daemon x ((hpresent x).mp hx)
  · intro x hx
    rw [hjoinable]
    exact h.joinable x ((hpresent x).mp hx)
  · intro x hx
    rw [hmax] at hx
    have habsent := h.fresh x hx
    have hne : x ≠ t := fun heq => ht (heq ▸ habsent)
    rw [update_of_ne hne]
    exact habsent
  · intro x u hx hjoins
    rw [hjoin] at hjoins
    obtain ⟨hu, hju, hplace⟩ := h.joining x u ((hpresent x).mp hx) hjoins
    rw [hjoinThread]
    refine ⟨(hpresent u).mpr hu, hju, ?_⟩
    by_cases hxt : x = t
    · subst hxt
      rw [update_self]
      exact hjoining (by rw [hjoins]; exact Option.some_ne_none u)
    · rw [update_of_ne hxt]
      exact hplace
  · intro x u hu hexit hju
    rw [hjoinThread] at hju
    rw [hpresent, hjoin]
    apply h.joined x u ((hpresent u).mp hu) _ hju
    by_cases hut : u = t
    · rw [hut]
      exact hlive
    · rw [update_of_ne hut] at hexit
      exact hexit
  · intro x hx
    rw [hjoinThread, hjoinable]
    exact h.waited x ((hpresent x).mp hx)

theorem Waits.move (h : Waits place s) (ht : place t ≠ .absent) (hq : q ≠ .exited)
    (hjoin : ∀ x, (s'.thread x).joining = (s.thread x).joining)
    (hready : place t = .ready → q = .ready) : Waits (update place t q) s' := by
  intro x u hx hjoins hu
  rw [hjoin] at hjoins
  have hut : u ≠ t := by
    intro heq
    rw [heq, update_self] at hu
    exact hq hu
  rw [update_of_ne hut] at hu
  by_cases hxt : x = t
  · subst hxt
    rw [update_self]
    exact hready (h x u ht hjoins hu)
  · rw [update_of_ne hxt] at hx ⊢
    exact h x u hx hjoins hu

section
variable (h : Inv place s)
include h

theorem Inv.shift (ht : place t ≠ .absent) (hlive : place t ≠ .exited) (hq : q ≠ .absent)
    (hstate : q.state = (place t).state) (hfrom : place t ≠ .sleeping) (hto : q ≠ .sleeping)
    (hthread : s'.thread = s.thread) (hlist : s'.threadlist = s.threadlist) (hmax : s'.maxTid = s.maxTid)
    (hdaemons : s'.numDaemonThreads = s.numDaemonThreads)
    (hsuspended : s'.numSuspendedThreads = s.numSuspendedThreads)
    (hrunnable : s'.numRunnableThreads = s.numRunnableThreads)
    (hzombie : s'.numZombieThreads = s.numZombieThreads)
    (hcurrent : ∀ x, s'.current = some x ↔ update place t q x = .running)
    (hrunlist : Holds (update place t q) .ready s'.runlist)
    (hblocklist : Holds (update place t q) .blocked (s'.blocklist.map Prod.snd))
    (hsleepq : Holds (update place t q) .sleeping s'.sleepq)
    (hjoining : (s.thread t).joining ≠ none → q = .ready ∨ q = .suspended) :
    Inv (update place t q) s' := by
  have hcensus : ∀ state, census (update place t q) s' state = census place s state := by
    intro state
    have hupdate : census (update place t q) s' state + _ = census place s state + _ :=
      census_update h.nodup ((h.present t).mpr ht) q hlist state
    rw [hstate] at hupdate
    omega
  have hsleep : ¬ (s.thread t).sleep ≠ none := fun hne => hfrom ((h.sleep t ht).mp hne)
  have hsame : s'.thread = update s.thread t (s.thread t) := by rw [hthread, update_eq_self]
  apply h.move ht hlive hq hsame
  · have hown := h.state t ht
    rw [← hstate] at hown
    rw [← hown]
  · exact iff_of_false hsleep hto
  · exact hlist
  · exact hmax
  · exact hdaemons
  · exact hcurrent
  · exact hrunlist
  · exact hblocklist
  · exact hsleepq
  · constructor
    · rw [hcensus, hsuspended]
      exact h.counts.suspended
    · rw [hcensus, hrunnable]
      exact h.counts.runnable
    · rw [hcensus, hzombie]
      exact h.counts.zombie
  · exact hjoining

theorem Inv.current_kept (ht : place t ≠ .running) (hq : q ≠ .running) (x : Tid) :
    s.current = some x ↔ update place t q x = .running := by
  rw [h.current]
  by_cases hx : x = t
  · rw [hx, update_self]
    exact iff_of_false ht hq
  · rw [update_of_ne hx]

theorem Inv.current_left (ht : place t = .running) (hq : q ≠ .running) (x : Tid) :
    none = some x ↔ update place t q x = .running := by
  apply iff_of_false
  · exact fun hnone => nomatch hnone
  · intro hx
    by_cases hxt : x = t
    · rw [hxt, update_self] at hx
      exact hq hx
    · rw [update_of_ne hxt] at hx
      have hsame := ((h.current x).mpr hx).symm.trans ((h.current t).mpr ht)
      exact hxt (Option.some.inj hsame)

theorem Inv.joining_none (ht : place t ≠ .absent) (hready : place t ≠ .ready)
    (hsuspended : place t ≠ .suspended) : (s.thread t).joining = none := by
  cases hjoin : (s.thread t).joining with
  | none => rfl
  | some u =>
    rcases (h.joining t u ht hjoin).2.2 with hplace | hplace
    · exact absurd hplace hready
    · exact absurd hplace hsuspended

end

end Moves

section Blocking
variable {place : Tid → Place} {s : State} {c t : Tid}

theorem threadYield_inv (h : Inv place s) (hc : place c = .running) :
    Inv (update place c .ready) (threadYield c s) := by
  have hready : place c ≠ .ready := by simp [hc]
  refine h.shift (by simp [hc]) (by simp [hc]) (by simp) (by rw [hc]; rfl) (by simp [hc]) (by simp) rfl rfl rfl rfl rfl rfl rfl
    ?_ ?_ ?_ ?_ ?_
  · exact h.current_left hc (by simp)
  · exact h.runlist.add hready
  · exact h.blocklist.other (by simp [hc]) (by simp)
  · exact h.sleepq.other (by simp [hc]) (by simp)
  · exact fun _ => .inl rfl

theorem schedUnblockThread_inv (h : Inv place s) (worldrank : Int) :
    Inv place (schedUnblockThread worldrank s) ∨
      ∃ t, place t = .blocked ∧ Inv (update place t .ready) (schedUnblockThread worldrank s) := by
  unfold schedUnblockThread
  cases hfind : s.blocklist.find? (·.1 = worldrank) with
  | none => exact .inl h
  | some stored =>
    have hmem := List.mem_of_find?_eq_some hfind
    have ht : place stored.2 = .blocked := h.blocklist.mem.mp (List.mem_map_of_mem hmem)
    have hperm : ((s.blocklist.erase stored).map Prod.snd).Perm ((s.blocklist.map Prod.snd).erase stored.2) := by
      have hcons := (List.perm_cons_erase hmem).map Prod.snd
      rw [List.map_cons] at hcons
      have herase := hcons.erase stored.2
      rw [List.erase_cons_head] at herase
      exact herase.symm
    refine .inr ⟨stored.2, ht, ?_⟩
    refine h.shift (by simp [ht]) (by simp [ht]) (by simp) (by rw [ht]; rfl) (by simp [ht]) (by simp) rfl rfl rfl rfl rfl rfl rfl
      ?_ ?_ ?_ ?_ ?_
    · exact h.current_kept (by simp [ht]) (by simp)
    · exact h.runlist.add (by simp [ht])
    · exact (h.blocklist.erase ht (by simp)).perm hperm
    · exact h.sleepq.other (by simp [ht]) (by simp)
    · exact fun _ => .inl rfl

variable {worldrank : Int}

theorem schedBlockThread_inv (h : Inv place s) (hc : place c = .running)
    (hkey : worldrank ∉ s.blocklist.map Prod.fst) :
    Inv (update place c .blocked) (leave (schedBlockThread worldrank c s)) := by
  unfold schedBlockThread
  rw [if_neg hkey]
  refine h.shift (by simp [hc]) (by simp [hc]) (by simp) (by rw [hc]; rfl) (by simp [hc]) (by simp) rfl rfl rfl rfl rfl rfl rfl
    ?_ ?_ ?_ ?_ ?_
  · exact h.current_left hc (by simp)
  · exact h.runlist.other (by simp [hc]) (by simp)
  · show Holds _ _ ((s.blocklist ++ [(worldrank, c)]).map Prod.snd)
    rw [List.map_append]
    exact h.blocklist.add (by simp [hc])
  · exact h.sleepq.other (by simp [hc]) (by simp)
  · intro hjoin
    exact absurd (h.joining_none (by simp [hc]) (by simp [hc]) (by simp [hc])) hjoin

theorem Inv.flags (h : Inv place s) (running ended : Bool) :
    Inv place { s with progressThreadRunning := running, ended := ended } :=
  ⟨h.nodup, h.present, h.current, h.runlist, h.blocklist, h.sleepq, h.state, h.sleep,
    ⟨h.counts.suspended, h.counts.runnable, h.counts.zombie⟩, h.noDaemons, h.daemon, h.joinable, h.fresh,
    h.joining, h.joined, h.waited⟩

theorem threadYield_proper (hproper : Proper s) (hcurrent : s.current = some c) : Proper (threadYield c s) := by
  obtain ⟨place, h, hw⟩ := hproper
  have hc := (h.current c).mp hcurrent
  refine ⟨_, threadYield_inv h hc, ?_⟩
  apply hw.move (by simp [hc]) (by simp)
  · exact fun _ => rfl
  · exact fun _ => rfl

theorem schedUnblockThread_thread (worldrank : Int) : (schedUnblockThread worldrank s).thread = s.thread := by
  unfold schedUnblockThread
  split <;> rfl

theorem schedUnblockThread_current (worldrank : Int) : (schedUnblockThread worldrank s).current = s.current := by
  unfold schedUnblockThread
  split <;> rfl

theorem schedUnblockThread_proper (hproper : Proper s) (worldrank : Int) :
    Proper (schedUnblockThread worldrank s) := by
  obtain ⟨place, h, hw⟩ := hproper
  have hjoining : ∀ x, ((schedUnblockThread worldrank s).thread x).joining = (s.thread x).joining := by
    intro x
    rw [schedUnblockThread_thread]
  rcases schedUnblockThread_inv h worldrank with hinv | ⟨t, ht, hinv⟩
  · refine ⟨place, hinv, ?_⟩
    intro x u hx hjoins
    rw [hjoining] at hjoins
    exact hw x u hx hjoins
  · refine ⟨_, hinv, ?_⟩
    apply hw.move (by simp [ht]) (by simp) hjoining
    exact fun _ => rfl

theorem schedStartProgressThread_proper (hproper : Proper s) : Proper (schedStartProgressThread s) := by
  unfold schedStartProgressThread
  split
  · exact hproper
  · obtain ⟨place, hinv, hw⟩ := schedUnblockThread_proper hproper progressThreadRank
    exact ⟨place, hinv.flags true _, hw⟩

theorem schedStartProgressThread_keys (hkey : worldrank ∉ s.blocklist.map Prod.fst) :
    worldrank ∉ (schedStartProgressThread s).blocklist.map Prod.fst := by
  have hsub : (schedStartProgressThread s).blocklist.Sublist s.blocklist := by
    unfold schedStartProgressThread schedUnblockThread
    split
    · exact List.Sublist.refl _
    · split
      · exact List.Sublist.refl _
      · exact List.erase_sublist
  intro hmem
  exact hkey ((hsub.map Prod.fst).subset hmem)

theorem schedStartProgressThread_current : (schedStartProgressThread s).current = s.current := by
  unfold schedStartProgressThread
  split
  · rfl
  · exact schedUnblockThread_current progressThreadRank

theorem threadYieldOnEvent_eq (worldrank : Int) :
    threadYieldOnEvent c worldrank s = leave (schedBlockThread worldrank c (schedStartProgressThread s)) := by
  have hunblock : schedUnblockThread progressThreadRank (leave s) = leave (schedUnblockThread progressThreadRank s) := by
    have hlist : (leave s).blocklist = s.blocklist := rfl
    unfold schedUnblockThread
    rw [hlist]
    cases hfind : s.blocklist.find? (·.1 = progressThreadRank) <;> rfl
  have hstart : schedStartProgressThread (leave s) = leave (schedStartProgressThread s) := by
    unfold schedStartProgressThread
    rw [hunblock]
    show (if s.progressThreadRunning then leave s else _) = _
    split <;> rfl
  unfold threadYieldOnEvent
  rw [hstart]
  rfl

theorem threadYieldOnEvent_proper (hproper : Proper s) (hcurrent : s.current = some c)
    (hkey : worldrank ∉ s.blocklist.map Prod.fst) : Proper (threadYieldOnEvent c worldrank s) := by
  obtain ⟨place, h, hw⟩ := schedStartProgressThread_proper hproper
  have hc : place c = .running := by
    apply (h.current c).mp
    rw [schedStartProgressThread_current]
    exact hcurrent
  rw [threadYieldOnEvent_eq]
  refine ⟨_, schedBlockThread_inv h hc (schedStartProgressThread_keys hkey), ?_⟩
  apply hw.move (by simp [hc]) (by simp)
  · exact fun _ => rfl
  · intro hready
    rw [hc] at hready
    exact nomatch hready

end Blocking

def resumed (t : Tid) (s : State) : State :=
  schedAddThread t ({ s with
    numSuspendedThreads := s.numSuspendedThreads - 1
    numRunnableThreads := s.numRunnableThreads + 1 }.set t { s.thread t with state := .runnable })

def unslept (t : Tid) (s : State) : State :=
  { s.set t { s.thread t with sleep := none } with sleepq := s.sleepq.erase t }

section Resuming
variable {place : Tid → Place} {s s' : State} {t : Tid}

theorem resumeInternal_eq (hstate : (s.thread t).state = .suspended) (hsleep : (s.thread t).sleep = none)
    (hsane : Sane (resumed t s)) : resumeInternal t s = .ok (resumed t s) := by
  have hown : ((s.set t { s.thread t with state := .runnable }).thread t).sleep = none := by
    show (update s.thread t { s.thread t with state := .runnable } t).sleep = none
    rw [update_self]
    exact hsleep
  have hcounted : Sane { s with
      numSuspendedThreads := s.numSuspendedThreads - 1
      numRunnableThreads := s.numRunnableThreads + 1 } := hsane
  simp only [resumeInternal, hstate, ne_eq, not_true_eq_false, if_false, sanityCheckThreadcounts, require_bind]
  rw [if_pos hcounted, if_pos trivial]
  exact if_pos hown

section
variable (h : Inv place s)
include h

theorem resumed_inv (ht : place t = .suspended) : Inv (update place t .ready) (resumed t s) := by
  have hsleep : (s.thread t).sleep = none := h.sleep_none (by simp [ht]) (by simp [ht])
  refine h.move (by simp [ht]) (by simp [ht]) (by simp) rfl rfl ?_ rfl rfl rfl ?_ ?_ ?_ ?_ ?_ ?_
  · exact iff_of_false (not_not.mpr hsleep) (by simp)
  · exact h.current_kept (by simp [ht]) (by simp)
  · exact h.runlist.add (by simp [ht])
  · exact h.blocklist.other (by simp [ht]) (by simp)
  · exact h.sleepq.other (by simp [ht]) (by simp)
  · refine h.counts_move (by simp [ht]) rfl ?_ ?_ ?_ <;> simp [ht, Place.state, resumed, schedAddThread, State.set]
  · exact fun _ => .inl rfl

theorem unslept_inv (ht : place t = .sleeping) : Inv (update place t .suspended) (unslept t s) := by
  have hstate : { s.thread t with sleep := none } =
      { s.thread t with state := Place.suspended.state, sleep := none } := by
    have hown := h.state t (by simp [ht])
    rw [ht] at hown
    rw [← show Place.sleeping.state = Place.suspended.state from rfl, ← hown]
  refine h.move (by simp [ht]) (by simp [ht]) (by simp) rfl hstate ?_ rfl rfl rfl ?_ ?_ ?_ ?_ ?_ ?_
  · exact iff_of_false (fun hne => hne rfl) (by simp)
  · exact h.current_kept (by simp [ht]) (by simp)
  · exact h.runlist.other (by simp [ht]) (by simp)
  · exact h.blocklist.other (by simp [ht]) (by simp)
  · exact h.sleepq.erase ht (by simp)
  · refine h.counts_move (by simp [ht]) rfl ?_ ?_ ?_ <;> simp [ht, Place.state, unslept, State.set]
  · exact fun _ => .inr rfl

theorem resumed_unslept_inv (ht : place t = .sleeping) :
    Inv (update place t .ready) (resumed t (unslept t s)) := by
  have hinv := resumed_inv (unslept_inv h ht) (update_self ..)
  rw [update_idem] at hinv
  exact hinv

theorem Inv.state_of {p : Place} (ht : place t = p) (hp : p ≠ .absent) : (s.thread t).state = p.state := by
  rw [← ht]
  exact h.state t (by rw [ht]; exact hp)

theorem wake_eq (ht : place t = .sleeping) : wake s t = .ok (resumed t (unslept t s)) := by
  have hown : (s.set t { s.thread t with sleep := none }).thread t = { s.thread t with sleep := none } :=
    update_self ..
  have hsane : Sane (resumed t (s.set t { s.thread t with sleep := none })) := (resumed_unslept_inv h ht).sane
  have hstate : (s.thread t).state = .suspended := h.state_of ht (by simp)
  unfold wake
  rw [resumeInternal_eq (by rw [hown]; exact hstate) (by rw [hown]) hsane]
  rfl

theorem threadResume_eq (ht : place t = .sleeping) : threadResume t s = .ok (resumed t (unslept t s)) := by
  have hown : (unslept t s).thread t = { s.thread t with sleep := none } := update_self ..
  have hstate : (s.thread t).state = .suspended := h.state_of ht (by simp)
  have hsleep : (s.thread t).sleep ≠ none := (h.sleep t (by simp [ht])).mpr ht
  unfold threadResume sleepqRemoveThread
  rw [if_pos hsleep, require_bind, if_pos (h.sleepq.mem.mpr ht)]
  show resumeInternal t (unslept t s) = _
  exact resumeInternal_eq (by rw [hown]; exact hstate) (by rw [hown]) (resumed_unslept_inv h ht).sane

end

theorem resumed_joining (x : Tid) : ((resumed t s).thread x).joining = (s.thread x).joining := by
  show (update s.thread t { s.thread t with state := .runnable } x).joining = _
  by_cases hx : x = t
  · rw [hx, update_self]
  · rw [update_of_ne hx]

theorem unslept_joining (x : Tid) : ((unslept t s).thread x).joining = (s.thread x).joining := by
  show (update s.thread t { s.thread t with sleep := none } x).joining = _
  by_cases hx : x = t
  · rw [hx, update_self]
  · rw [update_of_ne hx]

structure Woken (place place' : Tid → Place) (s s' : State) : Prop where
  inv : Inv place' s'
  waits : Waits place' s'
  others : ∀ x, place x ≠ .sleeping → place' x = place x
  joining : ∀ x, (s'.thread x).joining = (s.thread x).joining

theorem foldlM_wake (h : Inv place s) (hw : Waits place s) {l : List Tid} (hnodup : l.Nodup)
    (hl : ∀ t ∈ l, place t = .sleeping) :
    ∃ s' place', l.foldlM wake s = .ok s' ∧ Woken place place' s s' := by
  induction l generalizing place s with
  | nil => exact ⟨s, place, rfl, h, hw, fun _ _ => rfl, fun _ => rfl⟩
  | cons t l ih =>
    obtain ⟨hnotin, hnodup⟩ := List.nodup_cons.mp hnodup
    have ht := hl t List.mem_cons_self
    have hjoining : ∀ x, ((resumed t (unslept t s)).thread x).joining = (s.thread x).joining := by
      intro x
      rw [resumed_joining, unslept_joining]
    have hwaits : Waits (update place t .ready) (resumed t (unslept t s)) := by
      apply hw.move (by simp [ht]) (by simp) hjoining
      exact fun _ => rfl
    have hrest : ∀ x ∈ l, update place t .ready x = .sleeping := by
      intro x hx
      have hne : x ≠ t := fun heq => hnotin (heq ▸ hx)
      rw [update_of_ne hne]
      exact hl x (List.mem_cons_of_mem t hx)
    obtain ⟨s', place', hfold, hwoken⟩ := ih (resumed_unslept_inv h ht) hwaits hnodup hrest
    refine ⟨s', place', ?_, hwoken.inv, hwoken.waits, ?_, ?_⟩
    · rw [List.foldlM_cons, wake_eq h ht]
      exact hfold
    · intro x hx
      have hne : x ≠ t := fun heq => hx (heq ▸ ht)
      have hsame := hwoken.others x
      rw [update_of_ne hne] at hsame
      exact hsame hx
    · intro x
      rw [hwoken.joining, hjoining]

theorem sleepqCheck_woken (h : Inv place s) (hw : Waits place s) (now : Nat) :
    ∃ s' place', sleepqCheck now s = .ok s' ∧ Woken place place' s s' := by
  apply foldlM_wake h hw
  · exact h.sleepq.nodup.filter _
  · intro t ht
    exact h.sleepq.mem.mp (List.mem_of_mem_filter ht)

theorem threadResume_inv (h : Inv place s) (hpresent : place t ≠ .absent) :
    ∃ s' q, threadResume t s = .ok s' ∧ Inv (update place t q) s' ∧
      (q = .ready ∨ q = place t ∧ place t ≠ .suspended) ∧
      ∀ x, (s'.thread x).joining = (s.thread x).joining := by
  by_cases hsleeping : place t = .sleeping
  · refine ⟨_, .ready, threadResume_eq h hsleeping, resumed_unslept_inv h hsleeping, .inl rfl, ?_⟩
    intro x
    rw [resumed_joining, unslept_joining]
  · have hsleep : ¬ (s.thread t).sleep ≠ none := mt (h.sleep t hpresent).mp hsleeping
    unfold threadResume
    rw [if_neg hsleep]
    by_cases hsuspended : place t = .suspended
    · have hstate : (s.thread t).state = .suspended := h.state_of hsuspended (by simp)
      have hinv := resumed_inv h hsuspended
      exact ⟨_, .ready, resumeInternal_eq hstate (not_not.mp hsleep) hinv.sane, hinv, .inl rfl, resumed_joining⟩
    · have hstate : (s.thread t).state ≠ .suspended := by
        rw [h.state t hpresent]
        cases hplace : place t <;> simp_all [Place.state]
      refine ⟨s, place t, if_pos hstate, ?_, .inr ⟨rfl, hsuspended⟩, fun _ => rfl⟩
      rw [update_eq_self]
      exact h

theorem threadResume_proper (hproper : Proper s) (hlive : t ∈ s.threadlist) :
    ∃ s', threadResume t s = .ok s' ∧ Proper s' := by
  obtain ⟨place, h, hw⟩ := hproper
  have hpresent := (h.present t).mp hlive
  obtain ⟨s', q, hresume, hinv, hq, hjoining⟩ := threadResume_inv h hpresent
  refine ⟨s', hresume, _, hinv, ?_⟩
  rcases hq with rfl | ⟨rfl, _⟩
  · exact hw.move hpresent (by simp) hjoining fun _ => rfl
  · rw [update_eq_self]
    intro x u hx hjoins
    rw [hjoining] at hjoins
    exact hw x u hx hjoins

theorem check_proper (hproper : Proper s) (now : Nat) : ∃ s', check now s = .ok s' ∧ Proper s' := by
  obtain ⟨place, h, hw⟩ := hproper
  obtain ⟨s', place', hcheck, hwoken⟩ := sleepqCheck_woken h hw now
  refine ⟨s', ?_, place', hwoken.inv, hwoken.waits⟩
  unfold check
  rw [sanity_ok h.sane]
  show (sleepqCheck now s >>= _) = _
  rw [hcheck]
  show (sanityCheckThreadcounts s' >>= _) = _
  rw [sanity_ok hwoken.inv.sane]
  rfl

end Resuming

end FgMpi.Threads.Places
