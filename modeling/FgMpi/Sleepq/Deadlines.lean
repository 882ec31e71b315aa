import FgMpi.Sleepq.Threadlib
import FgMpi.Machine.DeltaQueue

/-! The queued deltas track the absolute deadlines the threads asked for. -/

namespace FgMpi.Sleepq.Deadlines
open Machine.Checked Machine.DeltaQueue
open Sleepq.Threadlib
open Function (update update_of_ne update_self)

structure Inv (s : State) (due : Tid → Int) : Prop where
  nodup : s.sleepq.Nodup
  queued : ∀ t, t ∈ s.sleepq ↔ s.sleep t ≠ -1
  range : ∀ t ∈ s.sleepq, 0 ≤ s.sleep t ∧ s.sleep t < 2 ^ 63
  flag : ∀ t ∈ s.sleepq, (s.thread t).timeout = false
  tracks : Tracks s.sleep due s.lastCheckTime s.sleepq
  max_eq : (s.maxSleepTime : Int) = lastDue due s.lastCheckTime s.sleepq - s.lastCheckTime
  max_lt : s.maxSleepTime < 2 ^ 64
  sane : Sane s

theorem init_inv (due : Tid → Int) : Inv State.init due where
  nodup := List.nodup_nil
  queued t := by simp [State.init, State.sleep]
  range t ht := by simp [State.init] at ht
  flag t ht := by simp [State.init] at ht
  tracks := trivial
  max_eq := by simp [State.init]
  max_lt := by simp [State.init]
  sane := Or.inr ⟨rfl, rfl⟩

@[simp] theorem setSleep_same (th : Tid → Thread) (t : Tid) (x : Int) : (setSleep th t x t).sleep = x := by
  simp [setSleep]

@[simp] theorem setSleep_timeout (th : Tid → Thread) (t u : Tid) (x : Int) :
    (setSleep th t x u).timeout = (th u).timeout := by
  by_cases h : u = t
  · subst h; simp [setSleep]
  · simp [setSleep, h]

theorem setSleep_other (th : Tid → Thread) {t u : Tid} (x : Int) (h : u ≠ t) : setSleep th t x u = th u := by
  simp [setSleep, h]

variable {due : Tid → Int}

theorem Inv.nonneg {s : State} (h : Inv s due) : ∀ t ∈ s.sleepq, 0 ≤ s.sleep t := fun t ht => (h.range t ht).1

theorem Inv.max_pos_iff {s : State} (h : Inv s due) : 0 < s.maxSleepTime ↔ s.sleepq ≠ [] := by
  have hsane := h.sane
  unfold Sane at hsane
  rw [← List.length_pos_iff]
  omega

/-- `wakeLoop` wakes a part of the queue in front and leaves the rest tracking the same
deadlines from `now` on. -/
structure Woken (th : Tid → Thread) (due : Tid → Int) (b now : Int) (q : List Tid)
    (w : Wake) (woken : List Tid) : Prop where
  split : q = woken ++ w.sleepq
  woke : ∀ u ∈ woken, w.thread u = ⟨-1, true⟩ ∧ due u ≤ now
  other : ∀ u, u ∉ q → w.thread u = th u
  flag : ∀ u ∈ w.sleepq, (w.thread u).timeout = (th u).timeout
  range : ∀ u ∈ w.sleepq, 0 ≤ (w.thread u).sleep ∧ (w.thread u).sleep ≤ (th u).sleep
  tracks : Tracks (fun u => (w.thread u).sleep) due now w.sleepq
  started : ∀ pre u post, woken = pre ++ u :: post → lastDue due b pre < now
  stopped : w.sleepq ≠ [] → lastDue due b woken = now ∨ ∃ u rest, w.sleepq = u :: rest ∧ now < due u

theorem wakeLoop_woken (now : Nat) (due : Tid → Int) (q : List Tid) (b : Int)
    (th : Tid → Thread) (fw : Nat) (hb : b ≤ now) (hnodup : q.Nodup)
    (htracks : Tracks (fun u => (th u).sleep) due b q) (hnonneg : ∀ u ∈ q, 0 ≤ (th u).sleep) :
    ∃ woken, Woken th due b now q (wakeLoop now (now - b) q th fw) woken := by
  induction q generalizing b th with
  | nil =>
    refine ⟨[], ?_⟩
    constructor <;> simp [wakeLoop]
  | cons t rest ih =>
    obtain ⟨ht, hrest⟩ := htracks
    obtain ⟨htr, hnd⟩ := List.nodup_cons.mp hnodup
    simp only at ht
    have h0 : 0 ≤ (th t).sleep := hnonneg t (by simp)
    by_cases hpos : 0 < (now : Int) - b
    · by_cases hlater : (th t).sleep > now - b
      · -- the head is not due yet: its delta is shortened and the loop breaks
        refine ⟨[], ?_⟩
        have hw : wakeLoop now (now - b) (t :: rest) th fw =
            ⟨t :: rest, setSleep th t ((th t).sleep - (now - b)),
              toUnsigned (now + ((th t).sleep - (now - b)))⟩ := by
          simp only [wakeLoop, if_pos hpos, if_pos hlater]
        rw [hw]
        have hne : ∀ u ∈ rest, u ≠ t := fun u hu he => htr (he ▸ hu)
        refine ⟨rfl, by simp, ?_, ?_, ?_, ?_, by simp, ?_⟩
        · intro u hu
          exact setSleep_other th _ (fun he => hu (by simp [he]))
        · intro u _
          simp
        · intro u hu
          rcases List.mem_cons.mp hu with rfl | hu
          · simp only [setSleep_same]; omega
          · simp only [setSleep_other th _ (hne u hu)]
            exact ⟨hnonneg u (by simp [hu]), le_refl _⟩
        · refine ⟨by simp only [setSleep_same]; omega, ?_⟩
          refine hrest.congr (fun u hu => ?_) (fun _ _ => rfl)
          simp only [setSleep_other th _ (hne u hu)]
        · intro _
          exact Or.inr ⟨t, rest, rfl, by omega⟩
      · -- the head is woken and the loop goes on with its deadline as the base
        have hw : wakeLoop now (now - b) (t :: rest) th fw =
            wakeLoop now (now - due t) rest
              (update th t { sleep := -1, timeout := true }) fw := by
          have hint : (now : Int) - b - (th t).sleep = now - due t := by omega
          simp only [wakeLoop, if_pos hpos, if_neg hlater, hint]
        have hsame : ∀ u ∈ rest,
            update th t { sleep := -1, timeout := true } u = th u := by
          intro u hu
          have hut : u ≠ t := fun he => htr (he ▸ hu)
          exact update_of_ne hut _ _
        obtain ⟨woken, hwk⟩ := ih (due t)
          (update th t { sleep := -1, timeout := true }) (by omega) hnd
          (hrest.congr (fun u hu => by rw [hsame u hu]) (fun _ _ => rfl))
          (fun u hu => by rw [hsame u hu]; exact hnonneg u (by simp [hu]))
        rw [hw]
        have hmem : ∀ u ∈ (wakeLoop now (now - due t) rest
            (update th t { sleep := -1, timeout := true }) fw).sleepq, u ∈ rest := by
          intro u hu
          have hsplit := hwk.split
          exact hsplit ▸ List.mem_append_right woken hu
        refine ⟨t :: woken, ?_, ?_, ?_, ?_, ?_, hwk.tracks, ?_, ?_⟩
        · rw [List.cons_append, ← hwk.split]
        · intro u hu
          rcases List.mem_cons.mp hu with rfl | hu
          · refine ⟨?_, by omega⟩
            rw [hwk.other u htr, update_self]
          · exact hwk.woke u hu
        · intro u hu
          have hut : u ≠ t := fun he => hu (by simp [he])
          have hur : u ∉ rest := fun hm => hu (by simp [hm])
          rw [hwk.other u hur, update_of_ne hut]
        · intro u hu
          rw [hwk.flag u hu, hsame u (hmem u hu)]
        · intro u hu
          have h := hwk.range u hu
          rwa [hsame u (hmem u hu)] at h
        · intro pre u post hpre
          cases pre with
          | nil => simp only [lastDue_nil]; omega
          | cons p pre =>
            simp only [List.cons_append, List.cons.injEq] at hpre
            obtain ⟨rfl, hpre⟩ := hpre
            exact hwk.started pre u post hpre
        · intro hne
          exact hwk.stopped hne
    · -- nothing is left of the interval
      have hbn : b = now := by omega
      refine ⟨[], ?_⟩
      have hw : wakeLoop now (now - b) (t :: rest) th fw = ⟨t :: rest, th, fw⟩ := by
        simp only [wakeLoop, if_neg hpos]
      rw [hw]
      refine ⟨rfl, by simp, fun _ _ => rfl, fun _ _ => rfl, ?_, ?_, by simp, ?_⟩
      · intro u hu
        exact ⟨hnonneg u hu, le_refl _⟩
      · exact hbn ▸ ⟨ht, hrest⟩
      · intro _
        exact Or.inl hbn

theorem elapsed_eq (s : State) (now : Nat) (hle : s.lastCheckTime ≤ now) (hlt : now < 2 ^ 63) :
    elapsed s now = (now : Int) - s.lastCheckTime := by
  unfold elapsed
  split
  · rw [toLongLong_of_lt (by omega)]
    omega
  · omega

structure Checked (s : State) (due : Tid → Int) (now : Nat) (s' : State) : Prop where
  lastCheck : s'.lastCheckTime = now
  sublist : ∀ u ∈ s'.sleepq, u ∈ s.sleepq
  woke : ∀ u ∈ s.sleepq, u ∉ s'.sleepq → due u ≤ now
  other : ∀ u, u ∉ s.sleepq → s'.thread u = s.thread u
  max_eq : s'.maxSleepTime = s.maxSleepTime - (now - s.lastCheckTime)
  kept : Sane s' → Inv s' due

/-- The queue is left with a thread that is due `now`: two threads share the last
deadline, and the clock reads exactly that deadline. -/
def LastDueTwice (s : State) (due : Tid → Int) (now : Nat) : Prop :=
  ∃ t, s.sleepq.getLast? = some t ∧ s.sleep t = 0 ∧ due t = now

theorem wakeUp_checked (s : State) (due : Tid → Int) (now : Nat) (h : Inv s due)
    (hle : s.lastCheckTime ≤ now) (hlt : now < 2 ^ 63) :
    Checked s due now (wakeUp s now) ∧ (Sane (wakeUp s now) ↔ ¬LastDueTwice s due now) := by
  have hint := elapsed_eq s now hle hlt
  have htou : toUnsigned (elapsed s now) = now - s.lastCheckTime := by
    rw [hint, toUnsigned_of_nonneg (by omega) (by omega)]
    omega
  obtain ⟨woken, hw⟩ := wakeLoop_woken now due s.sleepq s.lastCheckTime s.thread
    s.firstWakeUsecs (by omega) h.nodup h.tracks h.nonneg
  rw [← hint] at hw
  -- the loop's result and the new total, by the name the definition has for them
  have hmax : (wakeUp s now).maxSleepTime = s.maxSleepTime - (now - s.lastCheckTime) := by
    simp only [wakeUp, htou]
    split <;> omega
  change Woken s.thread due s.lastCheckTime now s.sleepq
    ⟨(wakeUp s now).sleepq, (wakeUp s now).thread, _⟩ woken at hw
  have hsplit : s.sleepq = woken ++ (wakeUp s now).sleepq := hw.split
  have htotal := h.max_eq
  rw [hsplit, lastDue_append] at htotal
  have htr := h.tracks
  rw [hsplit, tracks_append] at htr
  have hwoken : (wakeUp s now).sleepq = [] → lastDue due s.lastCheckTime woken ≤ now := by
    intro _
    cases hlast : woken.getLast? with
    | none =>
      rw [List.getLast?_eq_none_iff] at hlast
      simp [hlast, hle]
    | some t =>
      rw [lastDue_of_getLast hlast]
      exact (hw.woke t (List.mem_of_getLast? hlast)).2
  have hlater : (wakeUp s now).sleepq ≠ [] →
      lastDue due now (wakeUp s now).sleepq = lastDue due s.lastCheckTime s.sleepq := by
    intro hne
    rw [hsplit, lastDue_append]
    cases hq : (wakeUp s now).sleepq with
    | nil => exact absurd hq hne
    | cons u rest => rfl
  have hbound := (Tracks.due_bounds hw.tracks (fun u hu => (hw.range u hu).1)).1
  have hmem : ∀ u ∈ (wakeUp s now).sleepq, u ∈ s.sleepq := by
    intro u hu
    rw [hsplit]
    exact List.mem_append_right woken hu
  -- the new total is what is left up to the last deadline
  have hnewmax : ((wakeUp s now).maxSleepTime : Int) =
      lastDue due now (wakeUp s now).sleepq - now := by
    by_cases hne : (wakeUp s now).sleepq = []
    · have hle' := hwoken hne
      rw [hne, lastDue_nil] at htotal
      rw [hne, lastDue_nil, hmax]
      omega
    · have hl := hlater hne
      have hmx := h.max_eq
      have hb : (now : Int) ≤ lastDue due now (wakeUp s now).sleepq := hbound
      rw [hmax]
      omega
  refine ⟨⟨rfl, hmem, ?_, hw.other, hmax, ?_⟩, ?_⟩
  · intro u hu hnu
    rw [hsplit] at hu
    rcases List.mem_append.mp hu with hu | hu
    · exact (hw.woke u hu).2
    · exact absurd hu hnu
  · intro hsane
    have hnd : (woken ++ (wakeUp s now).sleepq).Nodup := hsplit ▸ h.nodup
    refine ⟨(List.nodup_append.mp hnd).2.1, ?_, ?_, ?_, hw.tracks, hnewmax, ?_, hsane⟩
    · intro u
      constructor
      · intro hu heq
        have hnonneg : 0 ≤ (wakeUp s now).sleep u := (hw.range u hu).1
        omega
      · intro hne
        by_contra hu
        apply hne
        by_cases hq : u ∈ s.sleepq
        · rw [hsplit] at hq
          rcases List.mem_append.mp hq with hq | hq
          · simp only [State.sleep]
            exact congrArg Thread.sleep (hw.woke u hq).1
          · exact absurd hq hu
        · have hsl := (not_congr (h.queued u)).mp hq
          simp only [ne_eq, not_not, State.sleep] at hsl ⊢
          rw [← hsl]
          exact congrArg Thread.sleep (hw.other u hq)
    · intro u hu
      have hold := h.range u (hmem u hu)
      exact ⟨(hw.range u hu).1, lt_of_le_of_lt (hw.range u hu).2 hold.2⟩
    · intro u hu
      exact (hw.flag u hu).trans (h.flag u (hmem u hu))
    · rw [hmax]
      have := h.max_lt
      omega
  · constructor
    · rintro hsane ⟨t, hlast, hzero, hdue⟩
      -- the straggler is still queued, so the new total is not 0, yet it is due now
      have hne : (wakeUp s now).sleepq ≠ [] := by
        intro hempty
        rw [hempty, List.append_nil] at hsplit
        rw [hsplit, List.getLast?_eq_some_iff] at hlast
        obtain ⟨pre, hpre⟩ := hlast
        have hstart := hw.started pre t [] hpre
        have htr' := h.tracks
        rw [hsplit, hpre, tracks_append] at htr'
        have := htr'.2.1
        omega
      have hl := hlater hne
      rw [lastDue_of_getLast hlast, hdue] at hl
      rw [hl] at hnewmax
      have := List.length_pos_iff.mpr hne
      unfold Sane at hsane
      omega
    · intro hnot
      by_cases hne : (wakeUp s now).sleepq = []
      · refine Or.inr ⟨?_, by rw [hne]; rfl⟩
        rw [hne, lastDue_nil] at hnewmax
        omega
      · refine Or.inl ⟨?_, List.length_pos_iff.mpr hne⟩
        by_contra hpos
        apply hnot
        have hl := hlater hne
        have hlastnow : lastDue due now (wakeUp s now).sleepq = now := by omega
        obtain ⟨t, hlast⟩ : ∃ t, (wakeUp s now).sleepq.getLast? = some t := by
          cases hg : (wakeUp s now).sleepq.getLast? with
          | none => exact absurd (List.getLast?_eq_none_iff.mp hg) hne
          | some t => exact ⟨t, rfl⟩
        have hqlast : s.sleepq.getLast? = some t := by
          rw [hsplit, List.getLast?_append, hlast]
          rfl
        have hdue : due t = now := by
          have hd : lastDue due now (wakeUp s now).sleepq = due t := lastDue_of_getLast hlast
          rw [← hd, hlastnow]
        refine ⟨t, hqlast, ?_, hdue⟩
        have hstop : lastDue due s.lastCheckTime woken = now := by
          rcases hw.stopped hne with hstop | ⟨u, rest, hq, hu⟩
          · exact hstop
          · have hbu := ((Tracks.due_bounds hw.tracks (fun u hu => (hw.range u hu).1)).2 u
              (by simp only at hq ⊢; simp [hq])).2
            have : lastDue due now (wakeUp s now).sleepq = now := hlastnow
            simp only at hbu
            omega
        have htail : Tracks s.sleep due now (wakeUp s now).sleepq := hstop ▸ htr.2
        exact Tracks.delta_eq_zero htail (fun u hu => h.nonneg u (hmem u hu)) hlastnow t
          (List.mem_of_getLast? hlast)

theorem sleepqCheck_inv (s s' : State) (due : Tid → Int) (sync : Bool) (now : Nat)
    (h : Inv s due) (hle : s.lastCheckTime ≤ now) (hlt : now < 2 ^ 63)
    (hok : sleepqCheck sync now s = .ok s') :
    Inv s' due ∧ s'.lastCheckTime ≤ now ∧ (sync = true → Checked s due now s') := by
  unfold sleepqCheck at hok
  split at hok
  · rename_i hshort
    simp only [Except.ok.injEq] at hok
    subst hok
    refine ⟨⟨h.nodup, h.queued, h.range, h.flag, h.tracks, h.max_eq, h.max_lt, h.sane⟩, hle, ?_⟩
    intro hsync
    rw [hshort.1] at hsync
    cases hsync
  · rw [require_bind_eq_ok, require_bind_eq_ok] at hok
    obtain ⟨_, hsane, hok⟩ := hok
    simp only [Except.ok.injEq] at hok
    subst hok
    obtain ⟨hchecked, _⟩ := wakeUp_checked s due now h hle hlt
    exact ⟨hchecked.kept hsane, le_refl _, fun _ => hchecked⟩

theorem sleepqCheck_ok_iff (s : State) (due : Tid → Int) (sync : Bool) (now : Nat)
    (h : Inv s due) (hle : s.lastCheckTime ≤ now) (hlt : now < 2 ^ 63) :
    (∃ s', sleepqCheck sync now s = .ok s') ↔ ¬LastDueTwice s due now := by
  unfold sleepqCheck
  split
  · rename_i hshort
    refine ⟨?_, fun _ => ⟨_, rfl⟩⟩
    rintro _ ⟨t, hlast, _⟩
    have hpos := h.max_pos_iff.mpr (List.ne_nil_of_mem (List.mem_of_getLast? hlast))
    omega
  · obtain ⟨_, hsane⟩ := wakeUp_checked s due now h hle hlt
    rw [← hsane]
    constructor
    · rintro ⟨s', hok⟩
      rw [require_bind_eq_ok, require_bind_eq_ok] at hok
      exact hok.2.1
    · intro hs
      refine ⟨wakeUp s now, ?_⟩
      rw [require_bind_eq_ok, require_bind_eq_ok]
      exact ⟨h.sane, hs, rfl⟩

theorem appendThread_inv (s s' : State) (due : Tid → Int) (t : Tid) (timeout : Nat)
    (h : Inv s due) (hidle : s.thread t = ⟨-1, false⟩) (hpos : 0 < timeout)
    (hlt : timeout < 2 ^ 64) (hge : s.maxSleepTime ≤ timeout) (hok : appendThread t timeout s = .ok s') :
    Inv s' (update due t (s.lastCheckTime + timeout)) ∧
      s'.lastCheckTime = s.lastCheckTime := by
  unfold appendThread at hok
  rw [require_bind_eq_ok, require_bind_eq_ok] at hok
  obtain ⟨hnonneg, hsane, hok⟩ := hok
  simp only [Except.ok.injEq] at hok
  subst hok
  refine ⟨?_, rfl⟩
  simp only [State.sleep, setSleep_same] at hnonneg
  have hnot : t ∉ s.sleepq := by
    rw [h.queued]
    simp [State.sleep, hidle]
  have hne : ∀ u ∈ s.sleepq, u ≠ t := fun u hu he => hnot (he ▸ hu)
  have hsmall : timeout - s.maxSleepTime < 2 ^ 63 := by
    by_contra hbig
    rw [toLongLong_neg_of_le (by omega) (by omega)] at hnonneg
    omega
  have hold : ∀ u ∈ s.sleepq,
      update due t ((s.lastCheckTime : Int) + timeout) u = due u := by
    intro u hu
    exact update_of_ne (hne u hu) _ _
  have hmax := h.max_eq
  constructor
  · simp only
    rw [List.nodup_append]
    refine ⟨h.nodup, by simp, ?_⟩
    intro a ha b hb
    simp only [List.mem_singleton] at hb
    subst hb
    exact hne a ha
  · intro u
    by_cases hut : u = t
    · subst hut
      simp only [State.sleep, setSleep_same, List.mem_append, List.mem_singleton, or_true, true_iff]
      omega
    · simp only [State.sleep, List.mem_append, List.mem_singleton, hut, or_false,
        setSleep_other s.thread _ hut]
      exact h.queued u
  · intro u hu
    rcases List.mem_append.mp hu with hu | hu
    · simp only [State.sleep, setSleep_other s.thread _ (hne u hu)]
      exact h.range u hu
    · simp only [List.mem_singleton] at hu
      subst hu
      simp only [State.sleep, setSleep_same]
      rw [toLongLong_of_lt hsmall]
      omega
  · intro u hu
    simp only [setSleep_timeout]
    rcases List.mem_append.mp hu with hu | hu
    · exact h.flag u hu
    · simp only [List.mem_singleton] at hu
      rw [hu, hidle]
  · simp only
    rw [tracks_append]
    refine ⟨h.tracks.congr (fun u hu => ?_) hold, ?_, trivial⟩
    · simp only [State.sleep, setSleep_other s.thread _ (hne u hu)]
    · simp only [State.sleep, setSleep_same, update_self]
      rw [lastDue_congr hold, toLongLong_of_lt hsmall]
      omega
  · simp
  · exact hlt
  · exact hsane

theorem appendThread_ok_iff (s : State) (t : Tid) (timeout : Nat) (hpos : 0 < timeout)
    (hlt : timeout < 2 ^ 64) :
    (∃ s', appendThread t timeout s = .ok s') ↔ timeout - s.maxSleepTime < 2 ^ 63 := by
  unfold appendThread
  simp only [require_bind_eq_ok, State.sleep, setSleep_same]
  constructor
  · rintro ⟨s', hnonneg, _⟩
    by_contra hbig
    rw [toLongLong_neg_of_le (by omega) (by omega)] at hnonneg
    omega
  · intro hsmall
    refine ⟨_, ?_, Or.inl ⟨hpos, by simp⟩, rfl⟩
    rw [toLongLong_of_lt hsmall]
    omega

/-- The backward search stops at the last thread that starts sleeping no later than the
new one ends: `timeout` lies between the thread's start and its deadline. -/
theorem findSlot_spec (th : Tid → Thread) (due : Tid → Int) (b : Int) (timeout : Nat)
    (rev after : List Tid) (total : Int) (hlt : timeout < 2 ^ 63)
    (htracks : Tracks (fun u => (th u).sleep) due b rev.reverse) (hnonneg : ∀ u ∈ rev, 0 ≤ (th u).sleep)
    (htotal : total = lastDue due b rev.reverse - b) (hbig : timeout < total) (hfit : total < 2 ^ 63) :
    ∃ slot, findSlot th timeout total rev after = .ok (some slot) ∧
      rev.reverse ++ after = slot.before ++ slot.tt :: slot.after ∧
      slot.total = lastDue due b slot.before - b ∧ 0 ≤ slot.total ∧ slot.total ≤ timeout ∧
      b + timeout < due slot.tt := by
  induction rev generalizing total after with
  | nil =>
    simp only [List.reverse_nil, lastDue_nil] at htotal
    omega
  | cons tt rev ih =>
    rw [List.reverse_cons] at htracks htotal ⊢
    rw [tracks_append] at htracks
    obtain ⟨hfront, htt, _⟩ := htracks
    rw [lastDue_append, lastDue_cons, lastDue_nil] at htotal
    simp only at htt
    have h0 : 0 ≤ (th tt).sleep := hnonneg tt (by simp)
    have hrest : ∀ u ∈ rev, 0 ≤ (th u).sleep := fun u hu => hnonneg u (by simp [hu])
    have hbase := (Tracks.due_bounds hfront
      (fun u hu => hrest u (List.mem_reverse.mp hu))).1
    have hsub : total - (th tt).sleep = lastDue due b rev.reverse - b := by omega
    have hll : longLong Fault.signedOverflow (total - (th tt).sleep) =
        .ok (lastDue due b rev.reverse - b) := by
      rw [longLong_eq_ok]
      exact ⟨by omega, hsub⟩
    have htou : toUnsigned (lastDue due b rev.reverse - b) = (lastDue due b rev.reverse - b).toNat :=
      toUnsigned_of_nonneg (by omega) (by omega)
    unfold findSlot
    rw [require_bind, if_pos h0, hll]
    simp only [bind, Except.bind]
    change ∃ slot, (require _ _ >>= fun _ => _) = _ ∧ _
    rw [require_bind, if_pos (by omega), htou]
    by_cases hstop : (lastDue due b rev.reverse - b).toNat ≤ timeout
    · rw [if_pos hstop]
      exact ⟨_, rfl, by simp, rfl, by simp only; omega, by simp only; omega,
        by simp only; omega⟩
    · rw [if_neg hstop]
      obtain ⟨slot, hfind, hsplit, hrests⟩ :=
        ih (tt :: after) _ hfront hrest rfl (by omega) (by omega)
      exact ⟨slot, hfind, by rw [← hsplit]; simp, hrests⟩

theorem findSlot_negative (th : Tid → Thread) (timeout : Nat) (rev after : List Tid)
    (total : Int) (hneg : total < 0) (hne : rev ≠ []) (r : Option Slot) :
    findSlot th timeout total rev after ≠ .ok r := by
  cases rev with
  | nil => exact absurd rfl hne
  | cons tt rev =>
    intro hok
    unfold findSlot at hok
    rw [require_bind_eq_ok, bind_eq_ok] at hok
    obtain ⟨h0, x, hx, hok⟩ := hok
    rw [longLong_eq_ok] at hx
    rw [require_bind_eq_ok] at hok
    omega

/-- The slot the search finds in a queue whose total fits a `long long`. -/
structure IsSlot (s : State) (due : Tid → Int) (timeout : Nat) (slot : Slot) : Prop where
  split : s.sleepq = slot.before ++ slot.tt :: slot.after
  total : slot.total = lastDue due s.lastCheckTime slot.before - s.lastCheckTime
  nonneg : 0 ≤ slot.total
  le : slot.total ≤ timeout
  lt_due : s.lastCheckTime + timeout < due slot.tt

theorem IsSlot.total_lt_iff {s : State} {timeout : Nat} {slot : Slot}
    (hs : IsSlot s due timeout slot) (h : Inv s due) (hpos : 0 < timeout) :
    slot.total < timeout ↔ ∀ u ∈ s.sleepq, due u ≠ s.lastCheckTime + timeout := by
  have htr := h.tracks
  rw [hs.split, tracks_append, tracks_cons] at htr
  obtain ⟨hfront, _, htail⟩ := htr
  have hmem : ∀ u ∈ slot.before, 0 ≤ s.sleep u := fun u hu =>
    h.nonneg u (by rw [hs.split]; simp [hu])
  have hmem' : ∀ u ∈ slot.after, 0 ≤ s.sleep u := fun u hu =>
    h.nonneg u (by rw [hs.split]; simp [hu])
  have htotal := hs.total
  have hlt := hs.lt_due
  constructor
  · intro hltt u hu
    rw [hs.split] at hu
    simp only [List.mem_append, List.mem_cons] at hu
    rcases hu with hu | rfl | hu
    · have := ((hfront.due_bounds hmem).2 u hu).2
      omega
    · omega
    · have := ((htail.due_bounds hmem').2 u hu).1
      omega
  · intro hne
    have hle := hs.le
    by_contra hge
    cases hlast : slot.before.getLast? with
    | none =>
      rw [List.getLast?_eq_none_iff.mp hlast, lastDue_nil] at htotal
      omega
    | some u =>
      rw [lastDue_of_getLast hlast] at htotal
      refine hne u ?_ (by omega)
      rw [hs.split]
      simp [List.mem_of_getLast? hlast]

theorem sleep_setSleep (th : Tid → Thread) (t : Tid) (x : Int) :
    (fun u => (setSleep th t x u).sleep) = update (fun u => (th u).sleep) t x := by
  funext u
  by_cases h : u = t
  · subst h; simp
  · simp [setSleep_other th x h, h]

def placed (t : Tid) (timeout now : Nat) (s : State) (slot : Slot) : State :=
  { s with
    firstWakeUsecs :=
      if slot.total = 0 then toUnsigned (now + timeout) else s.firstWakeUsecs
    sleepq := slot.before ++ t :: slot.tt :: slot.after
    thread := setSleep (setSleep s.thread t (timeout - slot.total)) slot.tt
      (s.sleep slot.tt - (timeout - slot.total)) }

theorem placed_sleep (t : Tid) (timeout now : Nat) (s : State) (slot : Slot) :
    (placed t timeout now s slot).sleep =
      update (update s.sleep t (timeout - slot.total)) slot.tt
        (s.sleep slot.tt - (timeout - slot.total)) := by
  change (fun u => (setSleep _ _ _ u).sleep) = _
  rw [sleep_setSleep, sleep_setSleep]
  rfl

section Insert
variable {s : State} {due : Tid → Int} {t : Tid} {timeout : Nat} {slot : Slot}

section
variable (h : Inv s due)
include h

theorem idle_not_queued (hidle : s.thread t = ⟨-1, false⟩) : t ∉ s.sleepq := by
  rw [h.queued]
  simp [State.sleep, hidle]

theorem placeThread_eq_ok (hs : IsSlot s due timeout slot)
    (hidle : s.thread t = ⟨-1, false⟩) (hlt : timeout < 2 ^ 63) (now : Nat) (s' : State) :
    placeThread t timeout now s slot = .ok s' ↔
      slot.total < timeout ∧ s' = placed t timeout now s slot := by
  have hnonneg := hs.nonneg
  have hle := hs.le
  have hdue := hs.lt_due
  have hnot := idle_not_queued h hidle
  have hne : slot.tt ≠ t := fun he => hnot (by rw [hs.split]; simp [he])
  have htt : 0 ≤ s.sleep slot.tt ∧ s.sleep slot.tt < 2 ^ 63 :=
    h.range slot.tt (by rw [hs.split]; simp)
  have htr := h.tracks
  rw [hs.split, tracks_append, tracks_cons] at htr
  have hdelta := htr.2.1
  have htotal := hs.total
  have hsleep : toLongLong (timeout - toUnsigned slot.total) = timeout - slot.total := by
    rw [toUnsigned_of_nonneg hnonneg (by omega), toLongLong_of_lt (by omega)]
    omega
  have hsame : (setSleep s.thread t (timeout - slot.total) slot.tt).sleep = s.sleep slot.tt := by
    rw [setSleep_other s.thread _ hne]
    rfl
  unfold placeThread
  simp only [hsleep, setSleep_same, hsame]
  rw [require_bind_eq_ok, bind_eq_ok]
  simp only [require_bind_eq_ok, longLong_eq_ok, Except.ok.injEq]
  constructor
  · rintro ⟨hpos, next, ⟨_, rfl⟩, _, rfl⟩
    exact ⟨by omega, rfl⟩
  · rintro ⟨hpos, rfl⟩
    exact ⟨by omega, _, ⟨by omega, rfl⟩, by omega, rfl⟩

theorem placed_inv (hs : IsSlot s due timeout slot)
    (hidle : s.thread t = ⟨-1, false⟩) (hlt : slot.total < timeout) (now : Nat) :
    Inv (placed t timeout now s slot) (update due t (s.lastCheckTime + timeout)) := by
  have hnot := idle_not_queued h hidle
  have hsplit := hs.split
  have htotal := hs.total
  have hnonneg := hs.nonneg
  have hdue := hs.lt_due
  have hmem : ∀ u, u ∈ (placed t timeout now s slot).sleepq ↔ u = t ∨ u ∈ s.sleepq := by
    intro u
    rw [hsplit]
    simp only [placed, List.mem_append, List.mem_cons]
    tauto
  have hne : slot.tt ≠ t := fun he => hnot (by rw [hsplit]; simp [he])
  have htr := h.tracks
  rw [hsplit] at htr
  have hdelta : s.sleep slot.tt = due slot.tt - lastDue due s.lastCheckTime slot.before :=
    ((tracks_append slot.before (slot.tt :: slot.after)).mp htr).2.1
  have htt : 0 ≤ s.sleep slot.tt ∧ s.sleep slot.tt < 2 ^ 63 :=
    h.range slot.tt (by rw [hsplit]; simp)
  -- the new deltas: of the new thread, of the one after it, of all others
  have hsl : ∀ u, (u = t → (placed t timeout now s slot).sleep u = timeout - slot.total) ∧
      (u = slot.tt → (placed t timeout now s slot).sleep u = s.sleep slot.tt - (timeout - slot.total)) ∧
      (u ≠ t → u ≠ slot.tt → (placed t timeout now s slot).sleep u = s.sleep u) := by
    intro u
    rw [placed_sleep]
    refine ⟨?_, ?_, ?_⟩
    · rintro rfl
      rw [update_of_ne (Ne.symm hne), update_self]
    · rintro rfl
      rw [update_self]
    · intro hut hutt
      rw [update_of_ne hutt, update_of_ne hut]
  have hpositive : ∀ u ∈ (placed t timeout now s slot).sleepq,
      0 ≤ (placed t timeout now s slot).sleep u ∧
        (placed t timeout now s slot).sleep u < 2 ^ 63 := by
    intro u hu
    obtain ⟨h1, h2, h3⟩ := hsl u
    by_cases hutt : u = slot.tt
    · rw [h2 hutt]; omega
    · by_cases hut : u = t
      · rw [h1 hut]; omega
      · rw [h3 hut hutt]
        exact h.range u (((hmem u).mp hu).resolve_left hut)
  refine ⟨?_, ?_, hpositive, ?_, ?_, ?_, h.max_lt, ?_⟩
  · have hperm : (placed t timeout now s slot).sleepq.Perm (t :: s.sleepq) := by
      rw [hsplit]
      exact List.perm_middle
    exact hperm.nodup_iff.mpr (List.nodup_cons.mpr ⟨hnot, h.nodup⟩)
  · intro u
    constructor
    · intro hu
      have := (hpositive u hu).1
      omega
    · intro hu
      by_contra hnu
      rw [hmem, not_or] at hnu
      have hutt : u ≠ slot.tt := fun he => hnu.2 (by rw [hsplit]; simp [he])
      rw [(hsl u).2.2 hnu.1 hutt] at hu
      exact hnu.2 ((h.queued u).mpr hu)
  · intro u hu
    simp only [placed, setSleep_timeout]
    rcases (hmem u).mp hu with rfl | hu
    · rw [hidle]
    · exact h.flag u hu
  · rw [placed_sleep]
    refine Tracks.insert htr (hsplit ▸ h.nodup) (hsplit ▸ hnot) ?_
    rw [htotal]
    simp only [placed]
    omega
  · have hmax := h.max_eq
    rw [hsplit, lastDue_append, lastDue_cons] at hmax
    simp only [placed, lastDue_append, lastDue_cons, update_self]
    have hafter : ∀ u ∈ slot.after,
        update due t ((s.lastCheckTime : Int) + timeout) u = due u := by
      intro u hu
      exact update_of_ne (fun he => hnot (by rw [hsplit]; simp [← he, hu])) _ _
    rw [update_of_ne hne, lastDue_congr hafter, hmax]
  · refine Or.inl ⟨h.max_pos_iff.mpr (by rw [hsplit]; simp), ?_⟩
    exact List.length_pos_iff.mpr (by simp [placed])

theorem findSlot_isSlot (hlt : timeout < s.maxSleepTime) (hfit : s.maxSleepTime < 2 ^ 63) :
    ∃ slot, findSlot s.thread timeout s.maxSleepTime s.sleepq.reverse [] = .ok (some slot) ∧
      IsSlot s due timeout slot := by
  obtain ⟨slot, hfind, hsplit, htotal, h0, hle, hdue⟩ :=
    findSlot_spec s.thread due s.lastCheckTime timeout s.sleepq.reverse [] s.maxSleepTime
      (by omega) (by rw [List.reverse_reverse]; exact h.tracks)
      (fun u hu => h.nonneg u (List.mem_reverse.mp hu))
      (by rw [List.reverse_reverse]; exact h.max_eq) (by omega) (by omega)
  rw [List.reverse_reverse, List.append_nil] at hsplit
  exact ⟨slot, hfind, hsplit, htotal, h0, hle, hdue⟩

theorem insertThread_eq_ok (hidle : s.thread t = ⟨-1, false⟩)
    (hpos : 0 < timeout) (hlt : timeout < s.maxSleepTime) (now : Nat) (s' : State) :
    insertThread t timeout now s = .ok s' ↔
      s.maxSleepTime < 2 ^ 63 ∧ (∀ u ∈ s.sleepq, due u ≠ s.lastCheckTime + timeout) ∧
        ∃ slot, IsSlot s due timeout slot ∧
          findSlot s.thread timeout s.maxSleepTime s.sleepq.reverse [] = .ok (some slot) ∧
          s' = placed t timeout now s slot := by
  have hne : s.sleepq ≠ [] := h.max_pos_iff.mp (by omega)
  unfold insertThread
  by_cases hfit : s.maxSleepTime < 2 ^ 63
  · obtain ⟨slot, hfind, hs⟩ := findSlot_isSlot h hlt hfit
    rw [toLongLong_of_lt hfit, bind_eq_ok]
    simp only [hfind, Except.ok.injEq, exists_eq_left']
    rw [bind_eq_ok, ← hs.total_lt_iff h hpos]
    simp only [placeThread_eq_ok h hs hidle (by omega), require_bind_eq_ok, Except.ok.injEq]
    constructor
    · rintro ⟨s'', ⟨hltt, rfl⟩, _, rfl⟩
      exact ⟨hfit, hltt, slot, hs, rfl, rfl⟩
    · rintro ⟨_, hltt, slot', _, hslot', rfl⟩
      simp only [Option.some.injEq] at hslot'
      subst hslot'
      exact ⟨_, ⟨hltt, rfl⟩, (placed_inv h hs hidle hltt now).sane, rfl⟩
  · have hneg : toLongLong s.maxSleepTime < 0 := by
      have := h.max_lt
      rw [toLongLong_neg_of_le (by omega) h.max_lt]
      omega
    constructor
    · intro hok
      obtain ⟨found, hfound, _⟩ := bind_eq_ok.mp hok
      exact absurd hfound
        (findSlot_negative s.thread timeout _ [] _ hneg (by simpa using hne) found)
    · intro hr
      exact absurd hr.1 hfit

end

end Insert

/-- The new deadline does not make `fgmpi_sleepq_add_thread` fail: what is appended
fits a `long long`, and what is inserted meets no equal deadline. -/
def AddSafe (s : State) (due : Tid → Int) (timeout now : Nat) : Prop :=
  ¬LastDueTwice s due now ∧
    if s.maxSleepTime - (now - s.lastCheckTime) ≤ timeout then
      timeout - (s.maxSleepTime - (now - s.lastCheckTime)) < 2 ^ 63
    else
      s.maxSleepTime - (now - s.lastCheckTime) < 2 ^ 63 ∧ ∀ u ∈ s.sleepq, due u ≠ now + timeout

theorem sleepqAddThread_spec (s : State) (due : Tid → Int) (t : Tid) (timeout now now' : Nat)
    (h : Inv s due) (hidle : s.thread t = ⟨-1, false⟩) (hpos : 0 < timeout)
    (hlt64 : timeout < 2 ^ 64) (hle : s.lastCheckTime ≤ now) (hlt : now < 2 ^ 63) :
    ((∃ s', sleepqAddThread t timeout now now' s = .ok s') ↔ AddSafe s due timeout now) ∧
      ∀ s', sleepqAddThread t timeout now now' s = .ok s' →
        Inv s' (update due t (now + timeout)) ∧ s'.lastCheckTime = now := by
  have hcheck := sleepqCheck_ok_iff s due true now h hle hlt
  unfold AddSafe
  rw [← hcheck]
  cases hrun : sleepqCheck true now s with
  | error e =>
    have hfail : sleepqAddThread t timeout now now' s = .error e := by
      unfold sleepqAddThread
      rw [hrun]
      rfl
    rw [hfail]
    constructor
    · constructor
      · rintro ⟨s', hs'⟩
        cases hs'
      · rintro ⟨⟨s', hs'⟩, _⟩
        cases hs'
    · intro s' hs'
      cases hs'
  | ok s1 =>
    obtain ⟨h1, _, hchk⟩ := sleepqCheck_inv s s1 due true now h hle hlt hrun
    have hchk := hchk rfl
    have hidle1 : s1.thread t = ⟨-1, false⟩ := by
      rw [hchk.other t (idle_not_queued h hidle)]
      exact hidle
    have hgo : sleepqAddThread t timeout now now' s =
        if s1.maxSleepTime ≤ timeout then appendThread t timeout s1
        else insertThread t timeout now' s1 := by
      unfold sleepqAddThread
      rw [hrun]
      change (require _ _ >>= fun _ => _) = _
      rw [require_bind, if_pos (by simp [State.sleep, hidle1]), require_bind, if_pos h1.sane]
    -- the deadlines of threads the check woke lie in the past
    have hequal : (∀ u ∈ s1.sleepq, due u ≠ s1.lastCheckTime + timeout) ↔
        ∀ u ∈ s.sleepq, due u ≠ now + timeout := by
      rw [hchk.lastCheck]
      constructor
      · intro hall u hu
        by_cases hu1 : u ∈ s1.sleepq
        · exact hall u hu1
        · have := hchk.woke u hu hu1
          omega
      · intro hall u hu
        exact hall u (hchk.sublist u hu)
    have hlast : (s1.lastCheckTime : Int) = now := by rw [hchk.lastCheck]
    rw [hgo, ← hchk.max_eq]
    split
    · rename_i hge
      constructor
      · rw [appendThread_ok_iff s1 t timeout hpos hlt64]
        exact ⟨fun hfit => ⟨⟨s1, rfl⟩, hfit⟩, fun hr => hr.2⟩
      · intro s' hok
        have hr := appendThread_inv s1 s' due t timeout h1 hidle1 hpos hlt64 hge hok
        rw [hlast, hchk.lastCheck] at hr
        exact hr
    · rename_i hge
      have hins := insertThread_eq_ok h1 hidle1 hpos (by omega : timeout < s1.maxSleepTime) now'
      constructor
      · rw [← hequal]
        constructor
        · rintro ⟨s', hok⟩
          obtain ⟨hfit, hne, _⟩ := (hins s').mp hok
          exact ⟨⟨s1, rfl⟩, hfit, hne⟩
        · rintro ⟨_, hfit, hne⟩
          obtain ⟨slot, hfind, hs⟩ := findSlot_isSlot h1 (by omega : timeout < s1.maxSleepTime) hfit
          exact ⟨_, (hins _).mpr ⟨hfit, hne, slot, hs, hfind, rfl⟩⟩
      · intro s' hok
        obtain ⟨_, hne, slot, hs, _, rfl⟩ := (hins s').mp hok
        have hltt := (hs.total_lt_iff h1 hpos).mpr hne
        have hr := placed_inv h1 hs hidle1 hltt now'
        rw [hlast] at hr
        exact ⟨hr, hchk.lastCheck⟩

theorem removeLoop_eq (t : Tid) (s : State) (before xs ys : List Tid) (hx : t ∉ xs) :
    removeLoop t s before (xs ++ t :: ys) = unlinkThread t s (before ++ xs) ys := by
  induction xs generalizing before with
  | nil => simp [removeLoop]
  | cons x xs ih =>
    simp only [List.mem_cons, not_or] at hx
    rw [List.cons_append, removeLoop, if_neg (fun he => hx.1 he.symm), ih _ hx.2]
    simp

/-- Taking `t` out from between `before` and the rest leaves a queue that
`fgmpi_sleepq_sanity_check` accepts, and the next delta does not overflow. -/
def UnlinkSafe (s : State) (t : Tid) (before : List Tid) : List Tid → Prop
  | [] => before = [] ∨ s.sleep t ≠ s.maxSleepTime
  | nextt :: _ => s.sleep nextt + s.sleep t < 2 ^ 63

def RemoveSafe (s : State) (t : Tid) : Prop :=
  ∀ before rest, s.sleepq = before ++ t :: rest → UnlinkSafe s t before rest

section Remove
variable {s : State} {due : Tid → Int} {t : Tid}

variable {before : List Tid}

theorem split_unique {rest before' rest' : List Tid}
    (hnd : (before ++ t :: rest).Nodup) (heq : before ++ t :: rest = before' ++ t :: rest') :
    before = before' ∧ rest = rest' := by
  have hb : t ∉ before := fun hm => (List.nodup_append.mp hnd).2.2 t hm t (by simp) rfl
  have hr : t ∉ rest := (List.nodup_cons.mp (List.nodup_append.mp hnd).2.1).1
  have h := (List.append_cons_inj_of_notMem hb hr).mp heq
  exact ⟨h.1, h.2.2⟩

theorem unlinkThread_last (h : Inv s due) (hsplit : s.sleepq = before ++ [t]) :
    ∃ s', unlinkThread t s before [] = .ok s' ∧
      s'.maxSleepTime = s.maxSleepTime - (s.sleep t).toNat ∧ s'.sleepq = before ∧
      s'.lastCheckTime = s.lastCheckTime ∧ (Sane s' → Inv s' due) := by
  have hmem : t ∈ s.sleepq := by rw [hsplit]; simp
  have hrange := h.range t hmem
  have hmax := h.max_eq
  have hmaxlt := h.max_lt
  have htr := h.tracks
  have hnd := h.nodup
  rw [hsplit] at htr hmax hnd
  rw [tracks_append, tracks_cons] at htr
  obtain ⟨hfront, ht, _⟩ := htr
  rw [lastDue_append, lastDue_cons, lastDue_nil] at hmax
  obtain ⟨hndb, _, hdisj⟩ := List.nodup_append.mp hnd
  have hne : ∀ u ∈ before, u ≠ t := fun u hu => hdisj u hu t (by simp)
  have hsub : ∀ u ∈ before, u ∈ s.sleepq := fun u hu => by rw [hsplit]; simp [hu]
  have hbase := (hfront.due_bounds (fun u hu => h.nonneg u (hsub u hu))).1
  have hnew : toUnsigned (s.maxSleepTime - s.sleep t) =
      s.maxSleepTime - (s.sleep t).toNat := by
    rw [toUnsigned_of_nonneg (by omega) (by omega)]
    omega
  refine ⟨{ s with
      maxSleepTime := s.maxSleepTime - (s.sleep t).toNat
      sleepq := before
      thread := setSleep s.thread t (-1) }, ?_, rfl, rfl, rfl, ?_⟩
  · unfold unlinkThread
    simp only [passOnSleep, bind, Except.bind]
    change (require _ _ >>= fun _ => _) = _
    rw [require_bind, if_pos (h.flag t hmem), hnew, List.append_nil]
  · intro hsane
    refine ⟨hndb, ?_, ?_, ?_, ?_, ?_, ?_, hsane⟩
    · intro u
      by_cases hut : u = t
      · subst hut
        simp only [State.sleep, setSleep_same, ne_eq, not_true_eq_false, iff_false]
        exact fun hu => hne u hu rfl
      · have hq := h.queued u
        rw [hsplit] at hq
        simp only [List.mem_append, List.mem_singleton, hut, or_false] at hq
        simp only [State.sleep, setSleep_other s.thread _ hut]
        exact hq
    · intro u hu
      simp only [State.sleep, setSleep_other s.thread _ (hne u hu)]
      exact h.range u (hsub u hu)
    · intro u hu
      simp only [setSleep_timeout]
      exact h.flag u (hsub u hu)
    · refine hfront.congr (fun u hu => ?_) (fun _ _ => rfl)
      simp only [State.sleep, setSleep_other s.thread _ (hne u hu)]
    · simp only
      omega
    · simp only
      omega

theorem unlinkThread_next (h : Inv s due) {rest : List Tid} {nextt : Tid}
    (hsplit : s.sleepq = before ++ t :: nextt :: rest) :
    ((∃ s', unlinkThread t s before (nextt :: rest) = .ok s') ↔ s.sleep nextt + s.sleep t < 2 ^ 63) ∧
      ∀ s', unlinkThread t s before (nextt :: rest) = .ok s' →
        s'.lastCheckTime = s.lastCheckTime ∧ Inv s' due := by
  have hmem : t ∈ s.sleepq := by rw [hsplit]; simp
  have hmemn : nextt ∈ s.sleepq := by rw [hsplit]; simp
  have hrange := h.range t hmem
  have hrangen := h.range nextt hmemn
  have hnd := h.nodup
  rw [hsplit] at hnd
  have hne : nextt ≠ t := by
    have := (List.nodup_cons.mp (List.nodup_append.mp hnd).2.1).1
    exact fun he => this (by simp [he])
  have hok : ∀ s', unlinkThread t s before (nextt :: rest) = .ok s' ↔
      s.sleep nextt + s.sleep t < 2 ^ 63 ∧
        s' = { s with
          sleepq := before ++ nextt :: rest
          thread := setSleep (setSleep s.thread nextt (s.sleep nextt + s.sleep t)) t (-1) } := by
    intro s'
    unfold unlinkThread
    rw [bind_eq_ok]
    simp only [require_bind_eq_ok]
    simp only [passOnSleep, bind_eq_ok, longLong_eq_ok, Except.ok.injEq]
    constructor
    · rintro ⟨s1, ⟨x, ⟨hx, rfl⟩, rfl⟩, _, rfl⟩
      exact ⟨hx.2, rfl⟩
    · rintro ⟨hx, rfl⟩
      refine ⟨_, ⟨_, ⟨⟨by omega, hx⟩, rfl⟩, rfl⟩, ?_, rfl⟩
      simp only [setSleep_timeout]
      exact h.flag t hmem
  refine ⟨⟨fun ⟨s', hs'⟩ => ((hok s').mp hs').1, fun hx => ⟨_, (hok _).mpr ⟨hx, rfl⟩⟩⟩, ?_⟩
  intro s' hs'
  obtain ⟨hx, rfl⟩ := (hok s').mp hs'
  refine ⟨rfl, ?_⟩
  have hnew : ∀ u, (u = t → (setSleep (setSleep s.thread nextt (s.sleep nextt + s.sleep t)) t
      (-1) u).sleep = -1) ∧ (u = nextt → (setSleep (setSleep s.thread nextt
      (s.sleep nextt + s.sleep t)) t (-1) u).sleep = s.sleep nextt + s.sleep t) ∧
      (u ≠ t → u ≠ nextt → (setSleep (setSleep s.thread nextt (s.sleep nextt + s.sleep t)) t
      (-1) u).sleep = s.sleep u) := by
    intro u
    refine ⟨?_, ?_, ?_⟩
    · rintro rfl
      exact setSleep_same _ _ _
    · rintro rfl
      rw [setSleep_other _ _ hne, setSleep_same]
    · intro hut hun
      rw [setSleep_other _ _ hut, setSleep_other _ _ hun]
      rfl
  have hq : ∀ u, u ∈ before ++ nextt :: rest ↔ u ∈ s.sleepq ∧ u ≠ t := by
    intro u
    have hnt : t ∉ before ++ nextt :: rest := by
      have hperm : (before ++ t :: nextt :: rest).Perm (t :: (before ++ nextt :: rest)) :=
        List.perm_middle
      exact (List.nodup_cons.mp (hperm.nodup_iff.mp hnd)).1
    rw [hsplit]
    constructor
    · intro hu
      refine ⟨?_, fun he => hnt (he ▸ hu)⟩
      simp only [List.mem_append, List.mem_cons] at hu ⊢
      tauto
    · rintro ⟨hu, hut⟩
      simp only [List.mem_append, List.mem_cons, hut, false_or] at hu ⊢
      exact hu
  refine ⟨?_, ?_, ?_, ?_, ?_, ?_, h.max_lt, ?_⟩
  · have hperm : (before ++ t :: nextt :: rest).Perm (t :: (before ++ nextt :: rest)) := List.perm_middle
    exact (List.nodup_cons.mp (hperm.nodup_iff.mp hnd)).2
  · intro u
    obtain ⟨h1, h2, h3⟩ := hnew u
    simp only [State.sleep] at h1 h2 h3 ⊢
    rw [hq]
    by_cases hut : u = t
    · rw [h1 hut]
      simp [hut]
    · by_cases hun : u = nextt
      · rw [h2 hun, hun]
        simp only [State.sleep] at hrange hrangen
        exact ⟨fun _ => by omega, fun _ => ⟨hmemn, hne⟩⟩
      · rw [h3 hut hun]
        exact ⟨fun hu => (h.queued u).mp hu.1, fun hu => ⟨(h.queued u).mpr hu, hut⟩⟩
  · intro u hu
    obtain ⟨_, h2, h3⟩ := hnew u
    obtain ⟨hus, hut⟩ := (hq u).mp hu
    simp only [State.sleep] at h2 h3 hrange hrangen hx ⊢
    by_cases hun : u = nextt
    · rw [h2 hun]; omega
    · rw [h3 hut hun]
      exact h.range u hus
  · intro u hu
    simp only [setSleep_timeout]
    exact h.flag u ((hq u).mp hu).1
  · have htr := h.tracks
    rw [hsplit] at htr
    change Tracks (fun u => (setSleep _ _ _ u).sleep) _ _ _
    rw [sleep_setSleep, sleep_setSleep]
    exact Tracks.remove (-1) htr hnd
  · have hmax := h.max_eq
    rw [hsplit] at hmax
    simp only [lastDue_append, lastDue_cons] at hmax ⊢
    exact hmax
  · refine Or.inl ⟨h.max_pos_iff.mpr (List.ne_nil_of_mem hmem), ?_⟩
    exact List.length_pos_iff.mpr (by simp)

theorem sleepqRemoveThread_spec (h : Inv s due) (hq : s.sleep t ≠ -1) :
    ((∃ s', sleepqRemoveThread t s = .ok s') ↔ RemoveSafe s t) ∧
      ∀ s', sleepqRemoveThread t s = .ok s' →
        Inv s' due ∧ s'.lastCheckTime = s.lastCheckTime := by
  have hmem : t ∈ s.sleepq := (h.queued t).mpr hq
  obtain ⟨before, rest, hsplit⟩ := List.append_of_mem hmem
  have hnd := h.nodup
  rw [hsplit] at hnd
  have hb : t ∉ before := fun hm => (List.nodup_append.mp hnd).2.2 t hm t (by simp) rfl
  have hsafe : RemoveSafe s t ↔ UnlinkSafe s t before rest := by
    constructor
    · intro hs
      exact hs before rest hsplit
    · intro hs before' rest' hsplit'
      obtain ⟨rfl, rfl⟩ := split_unique hnd (hsplit ▸ hsplit')
      exact hs
  have hgo : ∀ s', sleepqRemoveThread t s = .ok s' ↔
      unlinkThread t s before rest = .ok s' ∧ Sane s' := by
    intro s'
    unfold sleepqRemoveThread
    rw [require_bind_eq_ok, require_bind_eq_ok, hsplit, removeLoop_eq t s [] before rest hb, bind_eq_ok]
    simp only [require_bind_eq_ok, Except.ok.injEq, List.nil_append]
    constructor
    · rintro ⟨_, _, s'', hun, hsane, rfl⟩
      exact ⟨hun, hsane⟩
    · rintro ⟨hun, hsane⟩
      exact ⟨h.nonneg t hmem, h.sane, s', hun, hsane, rfl⟩
  rw [hsafe]
  cases rest with
  | nil =>
    obtain ⟨s1, hun, hmax, hq1, hlast, hinv⟩ := unlinkThread_last h hsplit
    have hsane : Sane s1 ↔ before = [] ∨ s.sleep t ≠ s.maxSleepTime := by
      have hmaxeq := h.max_eq
      have htr := h.tracks
      have hrange := h.range t hmem
      rw [hsplit] at hmaxeq htr
      rw [tracks_append, tracks_cons] at htr
      obtain ⟨hfront, ht, _⟩ := htr
      rw [lastDue_append, lastDue_cons, lastDue_nil] at hmaxeq
      have hbase := (hfront.due_bounds
        (fun u hu => h.nonneg u (by rw [hsplit]; simp [hu]))).1
      unfold Sane
      rw [hq1, hmax]
      by_cases hempty : before = []
      · rw [hempty, lastDue_nil] at ht
        rw [hempty]
        exact ⟨fun _ => Or.inl rfl, fun _ => Or.inr ⟨by omega, rfl⟩⟩
      · have hlen := List.length_pos_iff.mpr hempty
        constructor
        · intro hsane
          refine Or.inr ?_
          omega
        · intro hne
          have hne := hne.resolve_left hempty
          omega
    constructor
    · unfold UnlinkSafe
      rw [← hsane]
      constructor
      · rintro ⟨s', hs'⟩
        obtain ⟨hun', hs'⟩ := (hgo s').mp hs'
        rw [hun] at hun'
        simp only [Except.ok.injEq] at hun'
        exact hun' ▸ hs'
      · intro hs
        exact ⟨s1, (hgo s1).mpr ⟨hun, hs⟩⟩
    · intro s' hs'
      obtain ⟨hun', hs'⟩ := (hgo s').mp hs'
      rw [hun] at hun'
      simp only [Except.ok.injEq] at hun'
      subst hun'
      exact ⟨hinv hs', hlast⟩
  | cons nextt rest =>
    obtain ⟨hiff, hinv⟩ := unlinkThread_next h hsplit
    constructor
    · simp only [UnlinkSafe]
      rw [← hiff]
      constructor
      · rintro ⟨s', hs'⟩
        exact ⟨s', ((hgo s').mp hs').1⟩
      · rintro ⟨s', hs'⟩
        exact ⟨s', (hgo s').mpr ⟨hs', (hinv s' hs').2.sane⟩⟩
    · intro s' hs'
      obtain ⟨hun, _⟩ := (hgo s').mp hs'
      exact ⟨(hinv s' hun).2, (hinv s' hun).1⟩

end Remove

end FgMpi.Sleepq.Deadlines
