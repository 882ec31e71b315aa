import FgMpi.Sleepq.Assertions

/-! The order in which sleepers wake. -/

namespace FgMpi.Sleepq.WakeOrder
open Machine.Runs Machine.Checked Machine.DeltaQueue
open Sleepq.Threadlib Sleepq.Deadlines Sleepq.Assertions
open Function (update update_of_ne update_self)

/-- The `_thread_resume` calls of the loop of `threadlib.c:989-1006`. -/
def resumeCalls : Int → List Tid → (Tid → Thread) → List Tid
  | _, [], _ => []
  | interval, t :: rest, th =>
    if 0 < interval then
      if (th t).sleep > interval then []
      else
        t :: resumeCalls (interval - (th t).sleep) rest
          (update th t { sleep := -1, timeout := true })
    else []

/-- The `_thread_resume` calls of `fgmpi_sleepq_check`. -/
def checkCalls (sync : Bool) (now : Nat) (s : State) : List Tid :=
  if sync = false ∧ s.maxSleepTime = 0 then []
  else resumeCalls (elapsed s now) s.sleepq s.thread

/-- One `_thread_resume` of a check: the thread, the number and the deadline of the
addition it was queued by, and the clock reading of the check. -/
structure Resumption where
  tid : Tid
  serial : Nat
  deadline : Nat
  time : Nat
deriving Repr, DecidableEq

/-- The queue and what has happened to it.  Additions are numbered; `serial` is the number
of a thread's last one, `removed` lists those that `thread_resume` ended, and `checked` is
the reading of the last check. -/
structure Journal where
  world : World
  asked : List (Tid × Nat)
  serial : Tid → Nat
  removed : List Nat
  resumed : List Resumption
  checked : Nat

def Journal.init : Journal := ⟨World.init, [], fun _ => 0, [], [], 0⟩

def Journal.queue (j : Journal) : List Tid := j.world.state.sleepq

/-- What a check at `now` adds to the journal. -/
def Journal.entries (j : Journal) (sync : Bool) (now : Nat) : List Resumption :=
  (checkCalls sync now j.world.state).map
    (fun t => ⟨t, j.serial t, j.world.deadline t, now⟩)

def Journal.note (j : Journal) (w : World) : Op → Journal
  | .add t timeout now _ =>
    { world := w
      asked := j.asked ++ [(t, now + timeout)]
      serial := update j.serial t j.asked.length
      removed := j.removed
      resumed := j.resumed ++ j.entries true now
      checked := now }
  | .remove t => { j with world := w, removed := j.removed ++ [j.serial t] }
  | .check sync now =>
    { j with world := w, resumed := j.resumed ++ j.entries sync now, checked := now }
  | .runs _ => { j with world := w }

def record (j : Journal) (o : Op) : Except Fault Journal := do
  let w ← step j.world o
  .ok (j.note w o)

def Allowed (j : Journal) (o : Op) : Prop := Legal j.world o

instance (j : Journal) (o : Op) : Decidable (Allowed j o) := inferInstanceAs (Decidable (Legal j.world o))

def Sooner (a b : Nat × Nat) : Prop := a.1 < b.1 ∨ a.1 = b.1 ∧ a.2 < b.2

theorem Sooner.ne {a b : Nat × Nat} (h : Sooner a b) : a ≠ b := by
  intro he
  subst he
  rcases h with h | ⟨_, h⟩
  · exact Nat.lt_irrefl _ h
  · exact Nat.lt_irrefl _ h

def Resumption.key (r : Resumption) : Nat × Nat := (r.deadline, r.serial)

def Journal.key (j : Journal) (t : Tid) : Nat × Nat := (j.world.deadline t, j.serial t)

/-- The resumptions are in the order of the deadlines asked for, and none is early. -/
structure InTurn (j : Journal) : Prop where
  order : j.resumed.Pairwise (fun a b => Sooner a.key b.key)
  asked : ∀ r ∈ j.resumed, j.asked[r.serial]? = some (r.tid, r.deadline)
  due : ∀ r ∈ j.resumed, r.deadline ≤ r.time ∧ r.time ≤ j.checked

def AllResumed (j : Journal) : Prop :=
  ∀ n t deadline, j.asked[n]? = some (t, deadline) → deadline ≤ j.checked →
    n ∈ j.removed ∨ ∃ r ∈ j.resumed, r.serial = n

def Spread (w : World) (now : Nat) : Prop :=
  ∀ t ∈ w.state.sleepq, ∀ u ∈ w.state.sleepq, w.deadline t = now → w.deadline u = now → t = u

/-- The condition for the check of a call, also the one an addition begins with. -/
def SpreadAt (j : Journal) : Op → Prop
  | .add _ _ now _ => Spread j.world now
  | .check _ now => Spread j.world now
  | .remove _ | .runs _ => True

theorem resumeCalls_append (now : Nat) (interval : Int) (q : List Tid) (th : Tid → Thread) (fw : Nat) :
    q = resumeCalls interval q th ++ (wakeLoop now interval q th fw).sleepq := by
  induction q generalizing interval th with
  | nil => rfl
  | cons t rest ih =>
    unfold resumeCalls wakeLoop
    split
    · split
      · rfl
      · rw [List.cons_append, ← ih]
    · rfl

structure CheckSpec (s : State) (due : Tid → Int) (now : Nat) (calls : List Tid) (s' : State) : Prop where
  split : s.sleepq = calls ++ s'.sleepq
  woke : ∀ u ∈ calls, due u ≤ now
  later : ∀ u ∈ s'.sleepq, now ≤ due u
  started : ∀ pre u post, calls = pre ++ u :: post → lastDue due s.lastCheckTime pre < now
  stopped : ∀ u ∈ s'.sleepq, due u = now → lastDue due s.lastCheckTime calls = now
  clock : s'.sleepq ≠ [] → s'.lastCheckTime = now

variable {s s' : State} {due : Tid → Int}

theorem sleepqCheck_spec {sync : Bool} {now : Nat}
    (h : Inv s due) (hle : s.lastCheckTime ≤ now) (hlt : now < 2 ^ 63)
    (hok : sleepqCheck sync now s = .ok s') :
    CheckSpec s due now (checkCalls sync now s) s' := by
  unfold sleepqCheck at hok
  unfold checkCalls
  split at hok
  · -- the shortcut: nothing is queued
    rename_i hshort
    simp only [Except.ok.injEq] at hok
    subst hok
    have hempty : s.sleepq = [] := by
      by_contra hne
      have := h.max_pos_iff.mpr hne
      omega
    rw [if_pos hshort]
    constructor <;> simp [hempty]
  · rename_i hlong
    rw [require_bind_eq_ok, require_bind_eq_ok] at hok
    obtain ⟨_, _, hok⟩ := hok
    simp only [Except.ok.injEq] at hok
    subst hok
    rw [if_neg hlong]
    obtain ⟨woken, hw⟩ := wakeLoop_woken now due s.sleepq s.lastCheckTime s.thread
      s.firstWakeUsecs (by omega) h.nodup h.tracks h.nonneg
    rw [← elapsed_eq s now hle hlt] at hw
    have hcalls : resumeCalls (elapsed s now) s.sleepq s.thread = woken := by
      have hboth := (resumeCalls_append now (elapsed s now) s.sleepq s.thread
        s.firstWakeUsecs).symm.trans hw.split
      exact List.append_cancel_right hboth
    rw [hcalls]
    have hlater := (hw.tracks.due_bounds (fun u hu => (hw.range u hu).1)).2
    constructor
    · exact hw.split
    · exact fun u hu => (hw.woke u hu).2
    · exact fun u hu => (hlater u hu).1
    · exact hw.started
    · intro u hu hdue
      change u ∈ (wakeLoop now _ _ _ _).sleepq at hu
      rcases hw.stopped (List.ne_nil_of_mem hu) with hstop | ⟨v, rest, hq, hv⟩
      · exact hstop
      · -- the head is due later, and all others not before it
        have hsorted := hw.tracks.pairwise (fun u hu => (hw.range u hu).1)
        rw [hq] at hsorted hu
        rcases List.mem_cons.mp hu with rfl | hu
        · omega
        · have := (List.pairwise_cons.mp hsorted).1 u hu
          omega
    · exact fun _ => rfl

variable {t : Tid}

theorem appendThread_queue {timeout : Nat}
    (hok : appendThread t timeout s = .ok s') : s'.sleepq = s.sleepq ++ [t] := by
  unfold appendThread at hok
  rw [require_bind_eq_ok, require_bind_eq_ok] at hok
  obtain ⟨_, _, hok⟩ := hok
  simp only [Except.ok.injEq] at hok
  subst hok
  rfl

theorem sleepqAddThread_queue {timeout now now' : Nat}
    (h : Inv s due) (hidle : s.thread t = ⟨-1, false⟩) (hpos : 0 < timeout)
    (hle : s.lastCheckTime ≤ now) (hlt : now < 2 ^ 63) (hok : sleepqAddThread t timeout now now' s = .ok s') :
    ∃ s1 before after, sleepqCheck true now s = .ok s1 ∧ s1.sleepq = before ++ after ∧
      s'.sleepq = before ++ t :: after ∧ ∀ u ∈ after, due u ≠ now + timeout := by
  unfold sleepqAddThread at hok
  obtain ⟨s1, hcheck, hok⟩ := bind_eq_ok.mp hok
  rw [require_bind_eq_ok, require_bind_eq_ok] at hok
  obtain ⟨_, _, hok⟩ := hok
  obtain ⟨h1, _, hchk⟩ := sleepqCheck_inv s s1 due true now h hle hlt hcheck
  have hchk := hchk rfl
  split at hok
  · refine ⟨s1, s1.sleepq, [], hcheck, by simp, ?_, by simp⟩
    exact appendThread_queue hok
  · rename_i hless
    have hidle1 : s1.thread t = ⟨-1, false⟩ := by
      rw [hchk.other t (idle_not_queued h hidle)]
      exact hidle
    obtain ⟨_, hne, slot, hs, _, rfl⟩ :=
      (insertThread_eq_ok h1 hidle1 hpos (by omega) now' s').mp hok
    refine ⟨s1, slot.before, slot.tt :: slot.after, hcheck, hs.split, rfl, ?_⟩
    intro u hu
    have hdue := hne u (by rw [hs.split]; exact List.mem_append_right _ hu)
    rw [hchk.lastCheck] at hdue
    exact hdue

theorem sleepqRemoveThread_queue (h : Inv s due)
    (hq : s.sleep t ≠ -1) (hok : sleepqRemoveThread t s = .ok s') :
    s'.lastCheckTime = s.lastCheckTime ∧
      ∃ before rest, s.sleepq = before ++ t :: rest ∧ s'.sleepq = before ++ rest := by
  have hmem : t ∈ s.sleepq := (h.queued t).mpr hq
  refine ⟨((sleepqRemoveThread_spec h hq).2 s' hok).2, ?_⟩
  obtain ⟨before, rest, hsplit⟩ := List.append_of_mem hmem
  have hnd := h.nodup
  rw [hsplit] at hnd
  have hb : t ∉ before := fun hm => (List.nodup_append.mp hnd).2.2 t hm t (by simp) rfl
  refine ⟨before, rest, hsplit, ?_⟩
  unfold sleepqRemoveThread at hok
  rw [require_bind_eq_ok, require_bind_eq_ok, hsplit, removeLoop_eq t s [] before rest hb,
    bind_eq_ok] at hok
  obtain ⟨_, _, s1, hun, hok⟩ := hok
  rw [require_bind_eq_ok] at hok
  obtain ⟨_, hok⟩ := hok
  simp only [Except.ok.injEq] at hok
  subst hok
  unfold unlinkThread at hun
  obtain ⟨s2, _, hun⟩ := bind_eq_ok.mp hun
  rw [require_bind_eq_ok] at hun
  obtain ⟨_, hun⟩ := hun
  simp only [Except.ok.injEq] at hun
  subst hun
  simp

structure Ordered (j : Journal) : Prop where
  world : WorldInv j.world
  inTurn : InTurn j
  fresh : j.checked ≤ j.world.clock
  clock : j.queue ≠ [] → j.world.state.lastCheckTime = j.checked
  asked : ∀ t ∈ j.queue, j.asked[j.serial t]? = some (t, j.world.deadline t)
  ties : j.queue.Pairwise
    (fun t u => j.world.deadline t = j.world.deadline u → j.serial t < j.serial u)
  behind : ∀ r ∈ j.resumed, ∀ t ∈ j.queue, Sooner r.key (j.key t)
  gone : ∀ n ∈ j.removed, n < j.asked.length ∧ ∀ t ∈ j.queue, j.serial t ≠ n
  fate : ∀ n < j.asked.length,
    n ∈ j.removed ∨ (∃ r ∈ j.resumed, r.serial = n) ∨ ∃ t ∈ j.queue, j.serial t = n

theorem init_ordered : Ordered Journal.init where
  world := init_worldInv
  inTurn := ⟨List.Pairwise.nil, by simp [Journal.init], by simp [Journal.init]⟩
  fresh := le_refl _
  clock hne := absurd rfl hne
  asked := by simp [Journal.queue, Journal.init, World.init, State.init]
  ties := List.Pairwise.nil
  behind := by simp [Journal.init]
  gone := by simp [Journal.init]
  fate := by simp [Journal.init]

variable {j j' : Journal}

theorem Ordered.sorted (h : Ordered j) : j.queue.Pairwise (fun t u => Sooner (j.key t) (j.key u)) := by
  have hdue := h.world.inv.tracks.pairwise h.world.inv.nonneg
  refine List.Pairwise.imp ?_ (hdue.and h.ties)
  intro t u htu
  obtain ⟨hle, htie⟩ := htu
  have hle : (j.world.deadline t : Int) ≤ j.world.deadline u := hle
  rcases Nat.lt_or_eq_of_le (by omega : j.world.deadline t ≤ j.world.deadline u) with hlt | heq
  · exact Or.inl hlt
  · exact Or.inr ⟨heq, htie heq⟩

theorem Ordered.serial_inj (h : Ordered j) {u : Tid} (ht : t ∈ j.queue)
    (hu : u ∈ j.queue) (heq : j.serial t = j.serial u) : t = u := by
  have h1 := h.asked t ht
  rw [heq, h.asked u hu] at h1
  simp only [Option.some.injEq, Prod.mk.injEq] at h1
  exact h1.1.symm

theorem Ordered.serial_lt (h : Ordered j) (ht : t ∈ j.queue) : j.serial t < j.asked.length :=
  (List.getElem?_eq_some_iff.mp (h.asked t ht)).1

section Check
variable {j : Journal} {s' : State} {sync : Bool} {now : Nat}

theorem Ordered.checkSpec (h : Ordered j) (hle : j.world.clock ≤ now) (hlt : now < 2 ^ 63)
    (hok : sleepqCheck sync now j.world.state = .ok s') :
    CheckSpec j.world.state (World.due j.world) now (checkCalls sync now j.world.state) s' :=
  sleepqCheck_spec h.world.inv (h.world.checked.trans hle) hlt hok

theorem Ordered.check (h : Ordered j) (hle : j.world.clock ≤ now) (hlt : now < 2 ^ 63)
    (hok : sleepqCheck sync now j.world.state = .ok s') :
    Ordered (j.note { j.world with state := s', clock := now } (.check sync now)) := by
  have hspec := h.checkSpec hle hlt hok
  have hstep : step j.world (.check sync now) =
      .ok { j.world with state := s', clock := now } := by
    simp only [step, hok]
    rfl
  have hsplit : j.queue = checkCalls sync now j.world.state ++ s'.sleepq := hspec.split
  have hsub : ∀ u ∈ s'.sleepq, u ∈ j.queue := fun u hu => hsplit ▸ List.mem_append_right _ hu
  have hcalls : ∀ u ∈ checkCalls sync now j.world.state, u ∈ j.queue :=
    fun u hu => hsplit ▸ List.mem_append_left _ hu
  have hsorted := h.sorted
  rw [hsplit] at hsorted
  obtain ⟨hfront, _, hacross⟩ := List.pairwise_append.mp hsorted
  have hties := h.ties
  rw [hsplit] at hties
  -- an entry stands for a thread the check resumed
  have hentry : ∀ r ∈ j.entries sync now, ∃ t ∈ checkCalls sync now j.world.state,
      r = ⟨t, j.serial t, j.world.deadline t, now⟩ := by
    intro r hr
    obtain ⟨t, ht, he⟩ := List.mem_map.mp hr
    exact ⟨t, ht, he.symm⟩
  constructor
  · exact (step_spec j.world (.check sync now) h.world ⟨hle, hlt⟩).2 _ hstep
  · constructor
    · apply List.pairwise_append.mpr
      refine ⟨h.inTurn.order, ?_, ?_⟩
      · exact List.pairwise_map.mpr hfront
      · intro r hr r' hr'
        obtain ⟨t, ht, rfl⟩ := hentry r' hr'
        exact h.behind r hr t (hcalls t ht)
    · intro r hr
      rcases List.mem_append.mp hr with hr | hr
      · exact h.inTurn.asked r hr
      · obtain ⟨t, ht, rfl⟩ := hentry r hr
        exact h.asked t (hcalls t ht)
    · intro r hr
      rcases List.mem_append.mp hr with hr | hr
      · exact ⟨(h.inTurn.due r hr).1, (h.inTurn.due r hr).2.trans (h.fresh.trans hle)⟩
      · obtain ⟨t, ht, rfl⟩ := hentry r hr
        have hdue : (j.world.deadline t : Int) ≤ now := hspec.woke t ht
        exact ⟨Int.ofNat_le.mp hdue, le_refl _⟩
  · exact le_refl _
  · exact hspec.clock
  · intro t ht
    exact h.asked t (hsub t ht)
  · exact (List.pairwise_append.mp hties).2.1
  · intro r hr t ht
    rcases List.mem_append.mp hr with hr | hr
    · exact h.behind r hr t (hsub t ht)
    · obtain ⟨u, hu, rfl⟩ := hentry r hr
      exact hacross u hu t ht
  · intro n hn
    obtain ⟨hbound, hnot⟩ := h.gone n hn
    exact ⟨hbound, fun t ht => hnot t (hsub t ht)⟩
  · intro n hn
    rcases h.fate n hn with hgone | ⟨r, hr, hserial⟩ | ⟨t, ht, hserial⟩
    · exact Or.inl hgone
    · exact Or.inr (Or.inl ⟨r, List.mem_append_left _ hr, hserial⟩)
    · rw [hsplit] at ht
      rcases List.mem_append.mp ht with ht | ht
      · refine Or.inr (Or.inl ⟨_, List.mem_append_right _ (List.mem_map_of_mem ht), hserial⟩)
      · exact Or.inr (Or.inr ⟨t, ht, hserial⟩)

end Check

theorem Ordered.insert {w : World} {d : Nat} {before after : List Tid} (h : Ordered j) (hw : WorldInv w)
    (hdead : w.deadline = update j.world.deadline t d)
    (hold : j.queue = before ++ after) (hnew : w.state.sleepq = before ++ t :: after)
    (hne : ∀ u ∈ after, j.world.deadline u ≠ d) (hlate : j.checked < d)
    (hclock : j.checked ≤ w.clock) (hlast : w.state.lastCheckTime = j.checked) :
    Ordered { j with
      world := w
      asked := j.asked ++ [(t, d)]
      serial := update j.serial t j.asked.length } := by
  have hmem : ∀ u, u ∈ w.state.sleepq ↔ u = t ∨ u ∈ j.queue := by
    intro u
    rw [hold, hnew]
    simp only [List.mem_append, List.mem_cons]
    tauto
  have hnd := hw.inv.nodup
  rw [hnew] at hnd
  have hnot : ∀ u ∈ j.queue, u ≠ t := by
    have hperm : (before ++ t :: after).Perm (t :: (before ++ after)) := List.perm_middle
    have hcons := (List.nodup_cons.mp (hperm.nodup_iff.mp hnd)).1
    intro u hu he
    rw [hold, he] at hu
    exact hcons hu
  have hserial : ∀ u ∈ j.queue, update j.serial t j.asked.length u = j.serial u :=
    fun u hu => update_of_ne (hnot u hu) _ _
  have hdeadline : ∀ u ∈ j.queue, w.deadline u = j.world.deadline u := by
    intro u hu
    rw [hdead, update_of_ne (hnot u hu)]
  have hself : w.deadline t = d := by rw [hdead, update_self]
  have hties := h.ties
  rw [hold, List.pairwise_append] at hties
  obtain ⟨hbefore, hafter, hacross⟩ := hties
  have hinb : ∀ u ∈ before, u ∈ j.queue := fun u hu => hold ▸ List.mem_append_left _ hu
  have hina : ∀ u ∈ after, u ∈ j.queue := fun u hu => hold ▸ List.mem_append_right _ hu
  constructor
  · exact hw
  · constructor
    · exact h.inTurn.order
    · intro r hr
      have hasked := h.inTurn.asked r hr
      have hlen := (List.getElem?_eq_some_iff.mp hasked).1
      simp only
      rw [List.getElem?_append_left hlen, hasked]
    · exact h.inTurn.due
  · exact hclock
  · exact fun _ => hlast
  · intro u hu
    rcases (hmem u).mp hu with rfl | hu
    · simp only
      rw [update_self, hself, List.getElem?_concat_length]
    · simp only
      rw [hserial u hu, hdeadline u hu, List.getElem?_append_left (h.serial_lt hu)]
      exact h.asked u hu
  · change w.state.sleepq.Pairwise _
    rw [hnew, List.pairwise_append, List.pairwise_cons]
    have hkept : ∀ u ∈ j.queue, ∀ v ∈ j.queue,
        (j.world.deadline u = j.world.deadline v → j.serial u < j.serial v) →
        w.deadline u = w.deadline v →
          update j.serial t j.asked.length u <
            update j.serial t j.asked.length v := by
      intro u hu v hv himp heq
      rw [hdeadline u hu, hdeadline v hv] at heq
      rw [hserial u hu, hserial v hv]
      exact himp heq
    refine ⟨?_, ⟨?_, ?_⟩, ?_⟩
    · exact List.Pairwise.imp_of_mem
        (fun hu hv himp => hkept _ (hinb _ hu) _ (hinb _ hv) himp) hbefore
    · intro u hu heq
      rw [hself, hdeadline u (hina u hu)] at heq
      exact absurd heq.symm (hne u hu)
    · exact List.Pairwise.imp_of_mem
        (fun hu hv himp => hkept _ (hina _ hu) _ (hina _ hv) himp) hafter
    · intro u hu v hv
      rcases List.mem_cons.mp hv with rfl | hv
      · intro _
        change update j.serial _ j.asked.length u <
          update j.serial _ j.asked.length _
        rw [update_self, hserial u (hinb u hu)]
        exact h.serial_lt (hinb u hu)
      · exact hkept u (hinb u hu) v (hina v hv) (hacross u hu v hv)
  · intro r hr u hu
    rcases (hmem u).mp hu with rfl | hu
    · left
      change r.deadline < w.deadline u
      have := h.inTurn.due r hr
      rw [hself]
      omega
    · have hkey := h.behind r hr u hu
      unfold Journal.key at hkey ⊢
      simp only [hserial u hu, hdeadline u hu]
      exact hkey
  · intro n hn
    obtain ⟨hbound, hnone⟩ := h.gone n hn
    refine ⟨by simp only [List.length_append, List.length_singleton]; omega, ?_⟩
    intro u hu
    rcases (hmem u).mp hu with rfl | hu
    · simp only
      rw [update_self]
      omega
    · simp only
      rw [hserial u hu]
      exact hnone u hu
  · intro n hn
    simp only [List.length_append, List.length_singleton] at hn
    by_cases hlast : n = j.asked.length
    · refine Or.inr (Or.inr ⟨t, (hmem t).mpr (Or.inl rfl), ?_⟩)
      simp only
      rw [update_self, hlast]
    · rcases h.fate n (by omega) with hgone | hres | ⟨u, hu, hn⟩
      · exact Or.inl hgone
      · exact Or.inr (Or.inl hres)
      · refine Or.inr (Or.inr ⟨u, (hmem u).mpr (Or.inr hu), ?_⟩)
        simp only
        rw [hserial u hu, hn]

theorem Ordered.remove {w : World} {before rest : List Tid}
    (h : Ordered j) (hw : WorldInv w) (hdead : w.deadline = j.world.deadline)
    (hclock : w.clock = j.world.clock) (hlast : w.state.lastCheckTime = j.world.state.lastCheckTime)
    (hold : j.queue = before ++ t :: rest) (hnew : w.state.sleepq = before ++ rest) :
    Ordered (j.note w (.remove t)) := by
  have hmem : ∀ u, u ∈ w.state.sleepq → u ∈ j.queue := by
    intro u hu
    rw [hnew] at hu
    rw [hold]
    simp only [List.mem_append, List.mem_cons] at hu ⊢
    tauto
  have ht : t ∈ j.queue := by rw [hold]; simp
  have hnd := h.world.inv.nodup
  change j.queue.Nodup at hnd
  rw [hold] at hnd
  have hnot : ∀ u ∈ w.state.sleepq, u ≠ t := by
    have hperm : (before ++ t :: rest).Perm (t :: (before ++ rest)) := List.perm_middle
    have hcons := (List.nodup_cons.mp (hperm.nodup_iff.mp hnd)).1
    intro u hu he
    rw [hnew, he] at hu
    exact hcons hu
  have hties := h.ties
  rw [hold] at hties
  constructor
  · exact hw
  · exact ⟨h.inTurn.order, h.inTurn.asked, h.inTurn.due⟩
  · change j.checked ≤ w.clock
    rw [hclock]
    exact h.fresh
  · intro _
    change w.state.lastCheckTime = j.checked
    rw [hlast]
    exact h.clock (List.ne_nil_of_mem ht)
  · intro u hu
    change j.asked[j.serial u]? = some (u, w.deadline u)
    rw [hdead]
    exact h.asked u (hmem u hu)
  · change w.state.sleepq.Pairwise (fun t u => w.deadline t = w.deadline u → _)
    rw [hnew, hdead]
    apply List.Pairwise.sublist _ hties
    exact (List.Sublist.refl before).append (List.sublist_cons_self t rest)
  · intro r hr u hu
    change Sooner r.key (w.deadline u, j.serial u)
    rw [hdead]
    exact h.behind r hr u (hmem u hu)
  · intro n hn
    rcases List.mem_append.mp hn with hn | hn
    · obtain ⟨hbound, hnone⟩ := h.gone n hn
      exact ⟨hbound, fun u hu => hnone u (hmem u hu)⟩
    · rw [List.mem_singleton] at hn
      subst hn
      refine ⟨h.serial_lt ht, ?_⟩
      intro u hu heq
      exact hnot u hu (h.serial_inj (hmem u hu) ht heq)
  · intro n hn
    rcases h.fate n hn with hgone | hres | ⟨u, hu, hserial⟩
    · exact Or.inl (List.mem_append_left _ hgone)
    · exact Or.inr (Or.inl hres)
    · by_cases hut : u = t
      · refine Or.inl (List.mem_append_right _ ?_)
        rw [← hserial, hut]
        exact List.mem_singleton.mpr rfl
      · refine Or.inr (Or.inr ⟨u, ?_, hserial⟩)
        change u ∈ w.state.sleepq
        rw [hold] at hu
        rw [hnew]
        simp only [List.mem_append, List.mem_cons, hut, false_or] at hu ⊢
        exact hu

theorem record_eq_ok {o : Op} : record j o = .ok j' ↔ ∃ w, step j.world o = .ok w ∧ j' = j.note w o := by
  unfold record
  rw [bind_eq_ok]
  simp only [Except.ok.injEq]
  constructor
  · rintro ⟨w, hw, rfl⟩
    exact ⟨w, hw, rfl⟩
  · rintro ⟨w, hw, rfl⟩
    exact ⟨w, hw, rfl⟩

theorem Ordered.step {o : Op} (h : Ordered j) (hl : Allowed j o)
    (hok : record j o = .ok j') : Ordered j' := by
  obtain ⟨w, hw, rfl⟩ := record_eq_ok.mp hok
  have hworld := (step_spec j.world o h.world hl).2 w hw
  have hchk := h.world.checked
  cases o with
  | add t timeout now now' =>
    obtain ⟨hidle, hpos, _, hle, hle', hlt'⟩ := hl
    simp only [Threadlib.step, bind_eq_ok, Except.ok.injEq] at hw
    obtain ⟨s, hs, rfl⟩ := hw
    obtain ⟨s1, before, after, hcheck, hold, hnew, hne⟩ :=
      sleepqAddThread_queue h.world.inv hidle hpos (by omega) (by omega) hs
    have h1 := h.check hle (by omega) hcheck
    have hlast := ((sleepqAddThread_spec j.world.state (World.due j.world) t timeout now now'
      h.world.inv hidle hpos (by omega) (by omega) (by omega)).2 s hs).2
    refine h1.insert hworld rfl hold hnew ?_ ?_ hle' hlast
    · intro u hu heq
      apply hne u hu
      change (j.world.deadline u : Int) = now + timeout
      have heq : j.world.deadline u = now + timeout := heq
      omega
    · change now < now + timeout
      omega
  | remove t =>
    simp only [Threadlib.step, bind_eq_ok, Except.ok.injEq] at hw
    obtain ⟨s, hs, rfl⟩ := hw
    obtain ⟨hlast, before, rest, hold, hnew⟩ := sleepqRemoveThread_queue h.world.inv hl hs
    exact h.remove hworld rfl rfl hlast hold hnew
  | check sync now =>
    obtain ⟨hle, hlt⟩ := hl
    simp only [Threadlib.step, bind_eq_ok, Except.ok.injEq] at hw
    obtain ⟨s, hs, rfl⟩ := hw
    exact h.check hle hlt hs
  | runs t =>
    simp only [Threadlib.step, Except.ok.injEq] at hw
    subst hw
    exact ⟨hworld, ⟨h.inTurn.order, h.inTurn.asked, h.inTurn.due⟩, h.fresh, h.clock, h.asked,
      h.ties, h.behind, h.gone, h.fate⟩

def Later (j : Journal) : Prop := ∀ t ∈ j.queue, j.checked < j.world.deadline t

theorem allResumed_iff_later (h : Ordered j) : AllResumed j ↔ Later j := by
  constructor
  · intro hall t ht
    by_contra hdue
    rcases hall (j.serial t) t _ (h.asked t ht) (by omega) with hgone | ⟨r, hr, hserial⟩
    · exact (h.gone _ hgone).2 t ht rfl
    · -- a resumed addition comes before every queued one, so before itself
      apply (h.behind r hr t ht).ne
      have hasked := h.inTurn.asked r hr
      rw [hserial, h.asked t ht] at hasked
      simp only [Option.some.injEq, Prod.mk.injEq] at hasked
      exact Prod.ext hasked.2.symm hserial
  · intro hlater n t deadline hn hdue
    have hbound := (List.getElem?_eq_some_iff.mp hn).1
    rcases h.fate n hbound with hgone | hres | ⟨u, hu, hserial⟩
    · exact Or.inl hgone
    · exact Or.inr hres
    · have hasked := h.asked u hu
      rw [hserial, hn] at hasked
      simp only [Option.some.injEq, Prod.mk.injEq] at hasked
      have := hlater u hu
      omega

section Leftover
variable {j : Journal} {s' : State} {sync : Bool} {now : Nat}

theorem check_spread (h : Ordered j) (hle : j.world.clock ≤ now) (hlt : now < 2 ^ 63)
    (hok : sleepqCheck sync now j.world.state = .ok s')
    (hlater : ∀ t ∈ s'.sleepq, now < j.world.deadline t) : Spread j.world now := by
  have hspec := h.checkSpec hle hlt hok
  have hcalls : ∀ t ∈ j.world.state.sleepq, j.world.deadline t = now →
      t ∈ checkCalls sync now j.world.state := by
    intro t ht hdue
    rw [hspec.split] at ht
    rcases List.mem_append.mp ht with ht | ht
    · exact ht
    · have := hlater t ht
      omega
  have htracks := h.world.inv.tracks
  rw [hspec.split, tracks_append] at htracks
  have hnonneg : ∀ u ∈ checkCalls sync now j.world.state, 0 ≤ j.world.state.sleep u := by
    intro u hu
    apply h.world.inv.nonneg
    rw [hspec.split]
    exact List.mem_append_left _ hu
  -- before each resumption the deltas used up lie strictly before the reading
  have hfirst : ∀ pre u post, checkCalls sync now j.world.state = pre ++ u :: post →
      ∀ t ∈ pre, j.world.deadline t ≠ now := by
    intro pre u post hsplit t ht hdue
    have hstart := hspec.started pre u post hsplit
    have hfront := htracks.1
    rw [hsplit, tracks_append] at hfront
    have hbound := (hfront.1.due_bounds
      (fun v hv => hnonneg v (hsplit ▸ List.mem_append_left _ hv))).2 t ht
    simp only [World.due] at hbound hstart
    omega
  intro t ht u hu htdue hudue
  obtain ⟨pre, post, hsplit⟩ := List.append_of_mem (hcalls t ht htdue)
  have hu := hcalls u hu hudue
  rw [hsplit] at hu
  rcases List.mem_append.mp hu with hu | hu
  · exact absurd hudue (hfirst pre t post hsplit u hu)
  · rcases List.mem_cons.mp hu with he | hu
    · exact he.symm
    · obtain ⟨mid, post', hpost⟩ := List.append_of_mem hu
      rw [hpost] at hsplit
      refine absurd htdue (hfirst (pre ++ t :: mid) u post' ?_ t (by simp))
      rw [hsplit]
      simp

theorem check_later (h : Ordered j) (hold : Later j) (hle : j.world.clock ≤ now)
    (hlt : now < 2 ^ 63) (hok : sleepqCheck sync now j.world.state = .ok s')
    (hspread : Spread j.world now) : ∀ t ∈ s'.sleepq, now < j.world.deadline t := by
  have hspec := h.checkSpec hle hlt hok
  intro t ht
  have hnow : (now : Int) ≤ j.world.deadline t := hspec.later t ht
  by_contra hdue
  have heq : j.world.deadline t = now := by omega
  have hstop := hspec.stopped t ht (by simp only [World.due]; omega)
  have hmem : t ∈ j.queue := by
    change t ∈ j.world.state.sleepq
    rw [hspec.split]
    exact List.mem_append_right _ ht
  cases hlast : (checkCalls sync now j.world.state).getLast? with
  | none =>
    -- nothing is resumed: the last check was at the same reading
    rw [List.getLast?_eq_none_iff.mp hlast, lastDue_nil] at hstop
    have hclock := h.clock (List.ne_nil_of_mem hmem)
    have := hold t hmem
    omega
  | some u =>
    rw [lastDue_of_getLast hlast] at hstop
    have hu := List.mem_of_getLast? hlast
    have hudue : j.world.deadline u = now := by
      simp only [World.due] at hstop
      omega
    have hnd := h.world.inv.nodup
    rw [hspec.split] at hnd
    have hut : u = t := hspread u (hspec.split ▸ List.mem_append_left _ hu) t hmem hudue heq
    exact (List.nodup_append.mp hnd).2.2 u hu t ht hut

end Leftover

theorem later_step {o : Op} (h : Ordered j) (hl : Allowed j o) (hok : record j o = .ok j') :
    (Later j → SpreadAt j o → Later j') ∧ (Later j' → SpreadAt j o) := by
  obtain ⟨w, hw, rfl⟩ := record_eq_ok.mp hok
  have hchk := h.world.checked
  cases o with
  | add t timeout now now' =>
    obtain ⟨hidle, hpos, _, hle, hle', hlt'⟩ := hl
    simp only [Threadlib.step, bind_eq_ok, Except.ok.injEq] at hw
    obtain ⟨s, hs, rfl⟩ := hw
    obtain ⟨s1, before, after, hcheck, hold, hnew, hne⟩ :=
      sleepqAddThread_queue h.world.inv hidle hpos (by omega) (by omega) hs
    have hspec := h.checkSpec hle (by omega) hcheck
    have hnot := idle_not_queued h.world.inv hidle
    have hother : ∀ u ∈ s1.sleepq,
        update j.world.deadline t (now + timeout) u = j.world.deadline u := by
      intro u hu
      apply update_of_ne
      intro he
      apply hnot
      rw [hspec.split, ← he]
      exact List.mem_append_right _ hu
    have hmem : ∀ u, u ∈ s.sleepq ↔ u = t ∨ u ∈ s1.sleepq := by
      intro u
      rw [hold, hnew]
      simp only [List.mem_append, List.mem_cons]
      tauto
    constructor
    · intro hlater hspread u hu
      change now < update j.world.deadline t (now + timeout) u
      rcases (hmem u).mp hu with rfl | hu
      · rw [update_self]
        omega
      · rw [hother u hu]
        exact check_later h hlater hle (by omega) hcheck hspread u hu
    · intro hlater
      apply check_spread h hle (by omega) hcheck
      intro u hu
      rw [← hother u hu]
      exact hlater u ((hmem u).mpr (Or.inr hu))
  | remove t =>
    simp only [Threadlib.step, bind_eq_ok, Except.ok.injEq] at hw
    obtain ⟨s, hs, rfl⟩ := hw
    obtain ⟨_, before, rest, hold, hnew⟩ := sleepqRemoveThread_queue h.world.inv hl hs
    refine ⟨?_, fun _ => trivial⟩
    intro hlater _ u hu
    apply hlater u
    change u ∈ s.sleepq at hu
    change u ∈ j.world.state.sleepq
    rw [hnew] at hu
    rw [hold]
    simp only [List.mem_append, List.mem_cons] at hu ⊢
    tauto
  | check sync now =>
    obtain ⟨hle, hlt⟩ := hl
    simp only [Threadlib.step, bind_eq_ok, Except.ok.injEq] at hw
    obtain ⟨s, hs, rfl⟩ := hw
    constructor
    · intro hlater hspread
      exact fun t ht => check_later h hlater hle hlt hs hspread t ht
    · intro hlater
      exact check_spread h hle hlt hs hlater
  | runs t =>
    simp only [Threadlib.step, Except.ok.injEq] at hw
    subst hw
    exact ⟨fun hlater _ => hlater, fun _ => trivial⟩

/-- The checks resume in the order of the deadlines and never early, in every run.  They
have resumed all that is due, after every call, exactly when no check met two threads due
at its very reading. -/
theorem sleepers_resumed_iff (ops : List Op) (final : Journal)
    (hlegal : Along record Allowed Journal.init ops) (hrun : run record Journal.init ops = .ok final) :
    (∀ k j, run record Journal.init (ops.take k) = .ok j → InTurn j) ∧
      ((∀ k j, run record Journal.init (ops.take k) = .ok j → InTurn j ∧ AllResumed j) ↔
        Along record SpreadAt Journal.init ops) := by
  have hordered : ∀ k j, run record Journal.init (ops.take k) = .ok j → Ordered j := by
    intro k j hj
    exact run_invariant (fun _ _ _ h hl hok => h.step hl hok) init_ordered (hlegal.take k) hj
  have hinit : Ordered Journal.init ∧ Later Journal.init :=
    ⟨init_ordered, by simp [Later, Journal.queue, Journal.init, World.init, State.init]⟩
  have hiff : (∀ k j, run record Journal.init (ops.take k) = .ok j → Later j) ↔
      Along record SpreadAt Journal.init ops := by
    apply legal_states_iff_along (I := fun j => Ordered j ∧ Later j) _ _ _ hinit hlegal hrun
    · exact fun j h => h.2
    · exact fun j o j' h hl hspread hok =>
        ⟨h.1.step hl hok, (later_step h.1 hl hok).1 h.2 hspread⟩
    · exact fun j o j' h hl hok hlater => (later_step h.1 hl hok).2 hlater
  refine ⟨fun k j hj => (hordered k j hj).inTurn, ?_⟩
  rw [← hiff]
  constructor
  · intro hall k j hj
    exact (allResumed_iff_later (hordered k j hj)).mp (hall k j hj).2
  · intro hall k j hj
    exact ⟨(hordered k j hj).inTurn, (allResumed_iff_later (hordered k j hj)).mpr (hall k j hj)⟩

theorem sleepers_resumed_wakeAndResume :
    (∀ k j, run record Journal.init (wakeAndResume.take k) = .ok j → InTurn j) ∧
      ((∀ k j, run record Journal.init (wakeAndResume.take k) = .ok j →
          InTurn j ∧ AllResumed j) ↔ Along record SpreadAt Journal.init wakeAndResume) :=
  sleepers_resumed_iff wakeAndResume _ (by decide) rfl

def dueTogether : List Op := [.add 1 100 0 0, .add 2 100 0 0, .add 3 200 0 0, .check false 100]

theorem dueTogether_left :
    Along record Allowed Journal.init dueTogether ∧
      ∃ j, run record Journal.init dueTogether = .ok j ∧ ¬AllResumed j := by
  refine ⟨by decide, _, rfl, ?_⟩
  intro hall
  rcases hall 1 2 100 rfl (by decide) with hgone | ⟨r, hr, hserial⟩
  · cases hgone
  · have hone : r ∈ [(⟨1, 0, 100, 100⟩ : Resumption)] := hr
    rw [List.mem_singleton.mp hone] at hserial
    cases hserial

end FgMpi.Sleepq.WakeOrder
