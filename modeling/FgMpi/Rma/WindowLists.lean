import FgMpi.Machine.Runs

/-! The window lists and the progress hook (`mpid_rma.c`, `mpidi_rma.c`). -/

namespace FgMpi.Rma.WindowLists
open Function (update update_self)

open Machine.Runs

inductive ProgressFn
  | makeProgressGlobal
  | other (id : Nat)
  deriving DecidableEq

/-- A slot of `progress_hooks`: the function, unless `func_ptr` is null, and `active`. -/
abbrev HookSlot := Option (ProgressFn × Bool)

/-- A process: the hook table, the two window lists, and of each window the fields
that these functions read.  A target's operation lists are their lengths. -/
structure Windows where
  progressHooks : List HookSlot
  progressHookId : Nat
  live : List Nat
  winActiveList : List Nat
  winInactiveList : List Nat
  active : Nat → Bool
  numTargetsWithPendingNetOps : Nat → Nat
  pendingNetOps : Nat → Nat → Nat
  pendingUserOps : Nat → Nat → Nat

inductive Fault
  | assertion
  deriving DecidableEq

/-- The first slot without a function is taken; `none` is the error of a full table. -/
def Windows.registerHook (s : Windows) : Option Windows :=
  let i := s.progressHooks.idxOf none
  if i < s.progressHooks.length then
    some { s with progressHooks := s.progressHooks.set i (some (.makeProgressGlobal, false))
                  progressHookId := i }
  else none

def Windows.deregisterHook (s : Windows) : Except Fault Windows :=
  match s.progressHooks[s.progressHookId]? with
  | some (some _) => .ok { s with progressHooks := s.progressHooks.set s.progressHookId none }
  | _ => .error .assertion

/-- `activate_hook` and `deactivate_hook`: both assert the flag they change. -/
def Windows.switchHook (s : Windows) (on : Bool) : Except Fault Windows :=
  match s.progressHooks[s.progressHookId]? with
  | some (some (f, b)) =>
    if b = !on then .ok { s with progressHooks := s.progressHooks.set s.progressHookId (some (f, on)) }
    else .error .assertion
  | _ => .error .assertion

def Windows.setActive (s : Windows) (w : Nat) : Except Fault Windows :=
  if s.active w = false then do
    let s := { s with active := update s.active w true }
    let s ← if s.winActiveList = [] then s.switchHook true else .ok s
    .ok { s with winInactiveList := s.winInactiveList.erase w
                 winActiveList := s.winActiveList ++ [w] }
  else .ok s

def Windows.setInactive (s : Windows) (w : Nat) : Except Fault Windows :=
  if s.active w = true then do
    let s := { s with active := update s.active w false
                      winActiveList := s.winActiveList.erase w
                      winInactiveList := s.winInactiveList ++ [w] }
    if s.winActiveList = [] then s.switchHook false else .ok s
  else .ok s

/-- What `win_init` stores in a new window, which goes to the inactive list. -/
def Windows.append (s : Windows) (w : Nat) : Windows :=
  { s with live := w :: s.live
           winInactiveList := s.winInactiveList ++ [w]
           active := update s.active w false
           numTargetsWithPendingNetOps := update s.numTargetsWithPendingNetOps w 0
           pendingNetOps := update s.pendingNetOps w fun _ => 0
           pendingUserOps := update s.pendingUserOps w fun _ => 0 }

/-- `win_init`: a window whose hook cannot be registered is not made. -/
def Windows.winInit (s : Windows) (w : Nat) : Windows :=
  if s.winInactiveList = [] ∧ s.winActiveList = [] then
    match s.registerHook with
    | some s => s.append w
    | none => s
  else s.append w

/-- The end of `MPIDI_Win_free`.  The test for the last window reads the inactive list twice. -/
def Windows.winFree (s : Windows) (w : Nat) : Except Fault Windows :=
  if s.active w = false then do
    let s := { s with winInactiveList := s.winInactiveList.erase w }
    let s ← if s.winInactiveList = [] ∧ s.winInactiveList = [] then s.deregisterHook else .ok s
    .ok { s with live := s.live.erase w }
  else .error .assertion

def Windows.appendNetOp (s : Windows) (w t : Nat) : Windows :=
  { s with
    numTargetsWithPendingNetOps :=
      if s.pendingNetOps w t = 0 then
        update s.numTargetsWithPendingNetOps w (s.numTargetsWithPendingNetOps w + 1)
      else s.numTargetsWithPendingNetOps
    pendingNetOps := update s.pendingNetOps w
      (update (s.pendingNetOps w) t (s.pendingNetOps w t + 1)) }

def Windows.setUserOps (s : Windows) (w t n : Nat) : Windows :=
  { s with
    pendingUserOps := update s.pendingUserOps w (update (s.pendingUserOps w) t n) }

def Windows.moveUserOp (s : Windows) (w t : Nat) : Windows :=
  if s.pendingUserOps w t = 0 then s
  else (s.appendNetOp w t).setUserOps w t (s.pendingUserOps w t - 1)

/-- `MPIDI_CH3I_Win_enqueue_op`: `delay` says that the operation may wait for a
piggybacked lock, `granted` that the access state lets operations be issued. -/
def Windows.winEnqueueOp (s : Windows) (w t : Nat) (delay granted : Bool) : Except Fault Windows :=
  let s :=
    if delay then
      let s := s.moveUserOp w t
      s.setUserOps w t (s.pendingUserOps w t + 1)
    else s.appendNetOp w t
  if s.pendingNetOps w t ≠ 0 ∧ granted then s.setActive w else .ok s

def Windows.opCompleted (s : Windows) (w t : Nat) : Except Fault Windows :=
  let s := { s with
    pendingNetOps := update s.pendingNetOps w
      (update (s.pendingNetOps w) t (s.pendingNetOps w t - 1)) }
  if s.pendingNetOps w t = 0 then
    if s.numTargetsWithPendingNetOps w = 0 then .error .assertion
    else
      let s := { s with
        numTargetsWithPendingNetOps :=
          update s.numTargetsWithPendingNetOps w (s.numTargetsWithPendingNetOps w - 1) }
      if s.numTargetsWithPendingNetOps w = 0 then s.setInactive w else .ok s
  else .ok s

def Windows.winGranted (s : Windows) (w : Nat) : Except Fault Windows :=
  if s.numTargetsWithPendingNetOps w ≠ 0 then s.setActive w else .ok s

def Windows.lockGranted (s : Windows) (w t : Nat) : Except Fault Windows :=
  if s.pendingNetOps w t ≠ 0 then s.setActive w else .ok s

/-- Window creations and frees, operations, and what the progress engine does
with them: a user operation becomes a network operation, an operation is issued,
an access is granted. -/
inductive Event
  | create (w : Nat)
  | free (w : Nat)
  | enqueue (w t : Nat) (delay granted : Bool)
  | move (w t : Nat)
  | issued (w t : Nat)
  | granted (w : Nat)
  | locked (w t : Nat)
  deriving DecidableEq

def step (s : Windows) : Event → Except Fault Windows
  | .create w => .ok (s.winInit w)
  | .free w => s.winFree w
  | .enqueue w t delay granted => s.winEnqueueOp w t delay granted
  | .move w t => .ok (s.moveUserOp w t)
  | .issued w t => s.opCompleted w t
  | .granted w => s.winGranted w
  | .locked w t => s.lockGranted w t

/-- What the callers of these functions give them: an object not in use for a new
window, live windows, an inactive window to free, an operation that is there. -/
def Legal (s : Windows) : Event → Prop
  | .create w => w ∉ s.live
  | .free w => w ∈ s.live ∧ s.active w = false
  | .issued w t => w ∈ s.live ∧ s.pendingNetOps w t ≠ 0
  | .enqueue w _ _ _ | .move w _ | .granted w | .locked w _ => w ∈ s.live

def start (hooks : List HookSlot) : Windows :=
  ⟨hooks, 0, [], [], [], fun _ => false, fun _ => 0, fun _ _ => 0, fun _ _ => 0⟩

def Windows.hook (s : Windows) : HookSlot := (s.progressHooks[s.progressHookId]?).join

def Windows.Registered (s : Windows) : Prop := ∃ b, s.hook = some (.makeProgressGlobal, b)

def Windows.Polled (s : Windows) : Prop := s.hook = some (.makeProgressGlobal, true)

/-- Each live window is on exactly one list, and nothing else is on them; the hook is
registered while there is a window and active while there is an active one. -/
structure Sound (s : Windows) : Prop where
  one_list : ∀ w, s.winActiveList.count w + s.winInactiveList.count w = if w ∈ s.live then 1 else 0
  registered : s.Registered ↔ s.live ≠ []
  polled : s.Polled ↔ s.winActiveList ≠ []

structure Hooked (s : Windows) : Prop extends Sound s where
  flag : ∀ w, w ∈ s.winActiveList ↔ s.active w = true
  nodup : s.live.Nodup

def Counted (s : Windows) : Prop :=
  ∀ w, ∃ ts : Finset Nat, (∀ t, t ∈ ts ↔ s.pendingNetOps w t ≠ 0) ∧
    ts.card = s.numTargetsWithPendingNetOps w

def SameLists (s s' : Windows) : Prop :=
  s'.progressHooks = s.progressHooks ∧ s'.progressHookId = s.progressHookId ∧ s'.live = s.live ∧
    s'.winActiveList = s.winActiveList ∧ s'.winInactiveList = s.winInactiveList ∧ s'.active = s.active

variable {s : Windows}

theorem Hooked.of_sameLists {s' : Windows} (h : Hooked s) (hs : SameLists s s') : Hooked s' := by
  obtain ⟨h1, h2, h3, h4, h5, h6⟩ := hs
  obtain ⟨⟨hone, hreg, hpol⟩, hflag, hnodup⟩ := h
  have hhook : s'.hook = s.hook := by simp only [Windows.hook, h1, h2]
  constructor
  · constructor
    · simpa only [h3, h4, h5] using hone
    · simpa only [Windows.Registered, hhook, h3] using hreg
    · simpa only [Windows.Polled, hhook, h4] using hpol
  · simpa only [h4, h6] using hflag
  · simpa only [h3] using hnodup

variable {w : Nat}

theorem count_moved {xs ys live : List Nat}
    (h : ∀ v, xs.count v + ys.count v = if v ∈ live then 1 else 0) (hw : w ∈ live) (hx : w ∉ xs)
    (v : Nat) : (xs ++ [w]).count v + (ys.erase w).count v = if v ∈ live then 1 else 0 := by
  have hv := h v
  have hww := h w
  rw [if_pos hw, List.count_eq_zero_of_not_mem hx] at hww
  rw [List.count_append, List.count_singleton, List.count_erase, ← hv]
  by_cases hvw : w = v
  · subst hvw
    simp only [beq_self_eq_true, if_true]
    omega
  · simp [hvw]

theorem Windows.switchHook_spec {f : ProgressFn} {o : Bool} (h : s.hook = some (f, !o)) :
    ∃ hooks, s.switchHook o = .ok { s with progressHooks := hooks } ∧
      ({ s with progressHooks := hooks } : Windows).hook = some (f, o) := by
  have hget : s.progressHooks[s.progressHookId]? = some (some (f, !o)) := by
    simpa [Windows.hook, Option.join_eq_some_iff] using h
  have hlt := (List.getElem?_eq_some_iff.mp hget).1
  exact ⟨s.progressHooks.set s.progressHookId (some (f, o)), by simp [Windows.switchHook, hget],
    by simp [Windows.hook, List.getElem?_set_self hlt]⟩

theorem setActive_spec (h : Hooked s) (hw : w ∈ s.live) :
    ∃ s', s.setActive w = .ok s' ∧ Hooked s' ∧ s'.pendingNetOps = s.pendingNetOps ∧
      s'.numTargetsWithPendingNetOps = s.numTargetsWithPendingNetOps := by
  by_cases hact : s.active w = false
  · have hnot : w ∉ s.winActiveList := by rw [h.flag, hact]; exact Bool.false_ne_true
    have hone := count_moved h.one_list hw hnot
    have hne : s.winActiveList ++ [w] ≠ [] := by simp
    have hlive : s.live ≠ [] := List.ne_nil_of_mem hw
    have hflag : ∀ v, v ∈ s.winActiveList ++ [w] ↔ update s.active w true v = true := by
      intro v
      by_cases hvw : v = w
      · subst hvw; simp
      · simp [hvw, h.flag]
    by_cases hnil : s.winActiveList = []
    · -- the first active window: the hook is there and sleeps
      have hhook : s.hook = some (.makeProgressGlobal, false) := by
        obtain ⟨b, hb⟩ := h.registered.mpr hlive
        have hnp : ¬s.Polled := fun hp => h.polled.mp hp hnil
        cases b with
        | false => exact hb
        | true => exact absurd hb hnp
      obtain ⟨hooks, hok, hon⟩ := Windows.switchHook_spec
        (s := { s with active := update s.active w true }) (o := true) hhook
      refine ⟨{ s with progressHooks := hooks
                       active := update s.active w true
                       winInactiveList := s.winInactiveList.erase w
                       winActiveList := s.winActiveList ++ [w] }, ?_, ⟨⟨hone, ?_, ?_⟩, hflag, h.nodup⟩, rfl, rfl⟩
      · simp only [Windows.setActive, if_pos hact, if_pos hnil, hok, bind, Except.bind]
      · exact ⟨fun _ => hlive, fun _ => ⟨true, hon⟩⟩
      · exact ⟨fun _ => hne, fun _ => hon⟩
    · refine ⟨{ s with active := update s.active w true
                       winInactiveList := s.winInactiveList.erase w
                       winActiveList := s.winActiveList ++ [w] }, ?_, ⟨⟨hone, h.registered, ?_⟩, hflag, h.nodup⟩, rfl, rfl⟩
      · simp only [Windows.setActive, if_pos hact, if_neg hnil, bind, Except.bind]
      · exact ⟨fun _ => hne, fun _ => h.polled.mpr hnil⟩
  · exact ⟨s, by simp only [Windows.setActive, if_neg hact], h, rfl, rfl⟩

theorem setInactive_spec (h : Hooked s) (hw : w ∈ s.live) :
    ∃ s', s.setInactive w = .ok s' ∧ Hooked s' ∧ s'.pendingNetOps = s.pendingNetOps ∧
      s'.numTargetsWithPendingNetOps = s.numTargetsWithPendingNetOps := by
  by_cases hact : s.active w = true
  · have hmem : w ∈ s.winActiveList := (h.flag w).mpr hact
    have hcount := h.one_list w
    rw [if_pos hw] at hcount
    have hpos := List.count_pos_iff.mpr hmem
    have hnot : w ∉ s.winInactiveList := by rw [← List.count_eq_zero]; omega
    have hone : ∀ v, (s.winActiveList.erase w).count v + (s.winInactiveList ++ [w]).count v =
        if v ∈ s.live then 1 else 0 := by
      intro v
      rw [Nat.add_comm]
      exact count_moved (fun v => by rw [Nat.add_comm]; exact h.one_list v) hw hnot v
    have hlive : s.live ≠ [] := List.ne_nil_of_mem hw
    have hflag : ∀ v, v ∈ s.winActiveList.erase w ↔ update s.active w false v = true := by
      intro v
      by_cases hvw : v = w
      · subst hvw
        have hgone : v ∉ s.winActiveList.erase v := by
          rw [← List.count_eq_zero, List.count_erase_self]; omega
        simp [hgone]
      · simp [hvw, List.mem_erase_of_ne hvw, h.flag]
    have hpolled := h.polled.mpr (List.ne_nil_of_mem hmem)
    by_cases hnil : s.winActiveList.erase w = []
    · obtain ⟨hooks, hok, hoff⟩ := Windows.switchHook_spec
        (s := { s with active := update s.active w false
                       winActiveList := s.winActiveList.erase w
                       winInactiveList := s.winInactiveList ++ [w] }) (o := false) hpolled
      refine ⟨{ s with progressHooks := hooks
                       active := update s.active w false
                       winActiveList := s.winActiveList.erase w
                       winInactiveList := s.winInactiveList ++ [w] }, ?_, ⟨⟨hone, ?_, ?_⟩, hflag, h.nodup⟩, rfl, rfl⟩
      · simp only [Windows.setInactive, if_pos hact, if_pos hnil, hok]
      · exact ⟨fun _ => hlive, fun _ => ⟨false, hoff⟩⟩
      · constructor
        · intro hp
          cases hoff.symm.trans hp
        · intro hne
          exact absurd hnil hne
    · refine ⟨{ s with active := update s.active w false
                       winActiveList := s.winActiveList.erase w
                       winInactiveList := s.winInactiveList ++ [w] }, ?_, ⟨⟨hone, h.registered, ?_⟩, hflag, h.nodup⟩, rfl, rfl⟩
      · simp only [Windows.setInactive, if_pos hact, if_neg hnil]
      · exact ⟨fun _ => hnil, fun _ => hpolled⟩
  · exact ⟨s, by simp only [Windows.setInactive, if_neg hact], h, rfl, rfl⟩

theorem appendNetOp_counted (h : Counted s) (w t : Nat) : Counted (s.appendNetOp w t) := by
  intro v
  obtain ⟨ts, hts, hcard⟩ := h v
  by_cases hvw : v = w
  · subst hvw
    by_cases hzero : s.pendingNetOps v t = 0
    · refine ⟨insert t ts, ?_, ?_⟩
      · intro u
        by_cases hut : u = t <;> simp [Windows.appendNetOp, hut, hts]
      · have hnot : t ∉ ts := by simp [hts, hzero]
        simp [Windows.appendNetOp, hzero, Finset.card_insert_of_notMem hnot, hcard]
    · refine ⟨ts, ?_, by simp [Windows.appendNetOp, hzero, hcard]⟩
      intro u
      by_cases hut : u = t
      · subst hut; simp [Windows.appendNetOp, hts, hzero]
      · simp [Windows.appendNetOp, hut, hts]
  · refine ⟨ts, by simp [Windows.appendNetOp, hvw, hts], ?_⟩
    by_cases hzero : s.pendingNetOps w t = 0 <;> simp [Windows.appendNetOp, hvw, hzero, hcard]

def Inv (s : Windows) : Prop := Hooked s ∧ Counted s

theorem appendNetOp_inv (h : Inv s) (w t : Nat) : Inv (s.appendNetOp w t) :=
  ⟨h.1.of_sameLists ⟨rfl, rfl, rfl, rfl, rfl, rfl⟩, appendNetOp_counted h.2 w t⟩

theorem setUserOps_inv (h : Inv s) (w t n : Nat) : Inv (s.setUserOps w t n) :=
  ⟨h.1.of_sameLists ⟨rfl, rfl, rfl, rfl, rfl, rfl⟩, h.2⟩

theorem moveUserOp_inv (h : Inv s) (w t : Nat) :
    Inv (s.moveUserOp w t) ∧ (s.moveUserOp w t).live = s.live := by
  unfold Windows.moveUserOp
  split
  · exact ⟨h, rfl⟩
  · exact ⟨setUserOps_inv (appendNetOp_inv h w t) w t _, rfl⟩

section
variable (h : Inv s) (hw : w ∈ s.live)
include h hw

theorem setActive_inv : ∃ s', s.setActive w = .ok s' ∧ Inv s' := by
  obtain ⟨s', hok, hhooked, hnet, hnum⟩ := setActive_spec h.1 hw
  exact ⟨s', hok, hhooked, by simpa only [Counted, hnet, hnum] using h.2⟩

theorem setActive_if (c : Prop) [Decidable c] :
    ∃ s', (if c then s.setActive w else .ok s) = .ok s' ∧ Inv s' := by
  by_cases hc : c
  · rw [if_pos hc]; exact setActive_inv h hw
  · exact ⟨s, if_neg hc, h⟩

theorem winEnqueueOp_inv (t : Nat) (delay granted : Bool) :
    ∃ s', s.winEnqueueOp w t delay granted = .ok s' ∧ Inv s' := by
  cases delay with
  | false => exact setActive_if (appendNetOp_inv h w t) hw _
  | true =>
    obtain ⟨hinv, hlive⟩ := moveUserOp_inv h w t
    exact setActive_if (setUserOps_inv hinv w t _) (by rw [← hlive] at hw; exact hw) _

theorem opCompleted_inv {t : Nat}
    (ht : s.pendingNetOps w t ≠ 0) : ∃ s', s.opCompleted w t = .ok s' ∧ Inv s' := by
  obtain ⟨ts, hts, hcard⟩ := h.2 w
  have hmem : t ∈ ts := (hts t).mpr ht
  have hpos : 0 < ts.card := Finset.card_pos.mpr ⟨t, hmem⟩
  by_cases hlast : s.pendingNetOps w t - 1 = 0
  · -- the last operation for this target: it is counted no more
    have hcounted : Counted { s with
        pendingNetOps := update s.pendingNetOps w
          (update (s.pendingNetOps w) t (s.pendingNetOps w t - 1))
        numTargetsWithPendingNetOps :=
          update s.numTargetsWithPendingNetOps w (s.numTargetsWithPendingNetOps w - 1) } := by
      intro v
      by_cases hvw : v = w
      · subst hvw
        refine ⟨ts.erase t, ?_, by simp [Finset.card_erase_of_mem hmem, hcard]⟩
        intro u
        by_cases hut : u = t <;> simp [hut, hts, hlast]
      · obtain ⟨vs, hvs, hvcard⟩ := h.2 v
        exact ⟨vs, by simp [hvw, hvs], by simp [hvw, hvcard]⟩
    have hhooked : Hooked { s with
        pendingNetOps := update s.pendingNetOps w
          (update (s.pendingNetOps w) t (s.pendingNetOps w t - 1))
        numTargetsWithPendingNetOps :=
          update s.numTargetsWithPendingNetOps w (s.numTargetsWithPendingNetOps w - 1) } :=
      h.1.of_sameLists ⟨rfl, rfl, rfl, rfl, rfl, rfl⟩
    have hnum : s.numTargetsWithPendingNetOps w ≠ 0 := by omega
    simp only [Windows.opCompleted, update_self, hlast, if_true, if_neg hnum]
    rw [hlast] at hhooked hcounted
    split
    · obtain ⟨s', hok, hhooked', hnet, hnum'⟩ := setInactive_spec hhooked hw
      exact ⟨s', hok, hhooked', by simpa only [Counted, hnet, hnum'] using hcounted⟩
    · exact ⟨_, rfl, hhooked, hcounted⟩
  · have hcounted : Counted { s with
        pendingNetOps := update s.pendingNetOps w
          (update (s.pendingNetOps w) t (s.pendingNetOps w t - 1)) } := by
      intro v
      obtain ⟨vs, hvs, hvcard⟩ := h.2 v
      refine ⟨vs, ?_, hvcard⟩
      intro u
      by_cases hvw : v = w
      · subst hvw
        by_cases hut : u = t
        · subst hut; simp [hvs, ht, hlast]
        · simp [hut, hvs]
      · simp [hvw, hvs]
    have hok : s.opCompleted w t = .ok { s with
        pendingNetOps := update s.pendingNetOps w
          (update (s.pendingNetOps w) t (s.pendingNetOps w t - 1)) } := by
      simp only [Windows.opCompleted, update_self, if_neg hlast]
    exact ⟨_, hok, h.1.of_sameLists ⟨rfl, rfl, rfl, rfl, rfl, rfl⟩, hcounted⟩

end

theorem append_inv
    (hone : ∀ v, s.winActiveList.count v + s.winInactiveList.count v = if v ∈ s.live then 1 else 0)
    (hflag : ∀ v, v ∈ s.winActiveList ↔ s.active v = true) (hnodup : s.live.Nodup)
    (hreg : s.Registered) (hpolled : s.Polled ↔ s.winActiveList ≠ []) (hcounted : Counted s)
    (hw : w ∉ s.live) : Inv (s.append w) := by
  have hww := hone w
  rw [if_neg hw] at hww
  have hnot : w ∉ s.winActiveList := by rw [← List.count_eq_zero]; omega
  refine ⟨⟨⟨?_, ⟨fun _ => List.cons_ne_nil w s.live, fun _ => hreg⟩, hpolled⟩, ?_,
    List.nodup_cons.mpr ⟨hw, hnodup⟩⟩, ?_⟩
  · intro v
    have hv := hone v
    by_cases hvw : v = w
    · subst hvw
      simp only [Windows.append, List.count_append, List.count_singleton_self, List.mem_cons, true_or, if_true]
      omega
    · simpa [Windows.append, List.count_append, List.count_singleton, hvw, Ne.symm hvw] using hv
  · intro v
    by_cases hvw : v = w
    · subst hvw; simp [Windows.append, hnot]
    · simp [Windows.append, hvw, hflag]
  · intro v
    by_cases hvw : v = w
    · exact ⟨∅, by simp [Windows.append, hvw], by simp [Windows.append, hvw]⟩
    · obtain ⟨ts, hts, hcard⟩ := hcounted v
      exact ⟨ts, by simp [Windows.append, hvw, hts], by simp [Windows.append, hvw, hcard]⟩

theorem Sound.live_eq_nil (h : Sound s) (hi : s.winInactiveList = [])
    (ha : s.winActiveList = []) : s.live = [] := by
  apply List.eq_nil_iff_forall_not_mem.mpr
  intro w hw
  have hone := h.one_list w
  rw [if_pos hw, hi, ha] at hone
  cases hone

theorem Sound.mem_live (h : Sound s) (hw : w ∈ s.winActiveList ∨ w ∈ s.winInactiveList) : w ∈ s.live := by
  by_contra hnot
  have hone := h.one_list w
  rw [if_neg hnot] at hone
  cases hw with
  | inl ha => have := List.count_pos_iff.mpr ha; omega
  | inr hi => have := List.count_pos_iff.mpr hi; omega

theorem winInit_inv (h : Inv s) (hw : w ∉ s.live) : Inv (s.winInit w) := by
  unfold Windows.winInit
  split
  · rename_i hnil
    have hlive := h.1.live_eq_nil hnil.1 hnil.2
    cases hreg : s.registerHook with
    | none => exact h
    | some s' =>
      simp only [Windows.registerHook] at hreg
      split at hreg
      · rename_i hlt
        cases hreg
        have hhook : ({ s with progressHooks := s.progressHooks.set (s.progressHooks.idxOf none)
                                 (some (.makeProgressGlobal, false))
                               progressHookId := s.progressHooks.idxOf none } : Windows).hook =
            some (.makeProgressGlobal, false) := by
          simp [Windows.hook, List.getElem?_set_self hlt]
        refine append_inv h.1.one_list h.1.flag h.1.nodup ⟨false, hhook⟩ ?_ h.2 hw
        rw [Windows.Polled, hhook]
        simp [hnil.2]
      · cases hreg
  · rename_i hne
    have hlive : s.live ≠ [] := by
      intro hnil
      apply hne
      have hnone : ∀ v, v ∉ s.winActiveList ∧ v ∉ s.winInactiveList := by
        intro v
        have hone := h.1.one_list v
        rw [hnil, if_neg (List.not_mem_nil)] at hone
        exact ⟨by rw [← List.count_eq_zero]; omega, by rw [← List.count_eq_zero]; omega⟩
      exact ⟨List.eq_nil_iff_forall_not_mem.mpr fun v => (hnone v).2,
        List.eq_nil_iff_forall_not_mem.mpr fun v => (hnone v).1⟩
    exact append_inv h.1.one_list h.1.flag h.1.nodup (h.1.registered.mpr hlive) h.1.polled h.2 hw

theorem deregisterHook_spec (h : s.Registered) :
    ∃ hooks, s.deregisterHook = .ok { s with progressHooks := hooks } ∧
      ({ s with progressHooks := hooks } : Windows).hook = none := by
  obtain ⟨b, hb⟩ := h
  have hget : s.progressHooks[s.progressHookId]? = some (some (.makeProgressGlobal, b)) := by
    simpa [Windows.hook, Option.join_eq_some_iff] using hb
  have hlt := (List.getElem?_eq_some_iff.mp hget).1
  exact ⟨s.progressHooks.set s.progressHookId none, by simp [Windows.deregisterHook, hget],
    by simp [Windows.hook, List.getElem?_set_self hlt]⟩

def Safe (s : Windows) : Event → Prop
  | .free w => ¬(s.winInactiveList = [w] ∧ s.winActiveList ≠ [])
  | _ => True

theorem winFree_spec (h : Inv s) (hw : w ∈ s.live) (hact : s.active w = false) :
    ∃ hooks, s.winFree w = .ok { s with progressHooks := hooks
                                        winInactiveList := s.winInactiveList.erase w
                                        live := s.live.erase w } ∧
      if s.winInactiveList = [w] then ({ s with progressHooks := hooks } : Windows).hook = none
      else hooks = s.progressHooks := by
  have hnot : w ∉ s.winActiveList := by rw [h.1.flag, hact]; exact Bool.false_ne_true
  have hcount := h.1.one_list w
  rw [if_pos hw, List.count_eq_zero_of_not_mem hnot, Nat.zero_add] at hcount
  have honly : s.winInactiveList.erase w = [] ↔ s.winInactiveList = [w] := by
    have hmem : w ∈ s.winInactiveList := List.count_pos_iff.mp (by omega)
    rw [← List.length_eq_zero_iff, List.length_erase_of_mem hmem]
    constructor
    · intro hlen
      have hpos := List.length_pos_of_mem hmem
      obtain ⟨v, hv⟩ := List.length_eq_one_iff.mp (show s.winInactiveList.length = 1 by omega)
      rw [hv, List.mem_singleton] at hmem
      rw [hv, hmem]
    · intro heq
      rw [heq]
      rfl
  by_cases hlast : s.winInactiveList = [w]
  · obtain ⟨hooks, hok, hnone⟩ := deregisterHook_spec
      (s := { s with winInactiveList := s.winInactiveList.erase w })
      (h.1.registered.mpr (List.ne_nil_of_mem hw))
    refine ⟨hooks, ?_, by rw [if_pos hlast]; exact hnone⟩
    have hnil := honly.mpr hlast
    simp only [Windows.winFree, if_pos hact, if_pos (And.intro hnil hnil), hok, bind, Except.bind]
  · refine ⟨s.progressHooks, ?_, by rw [if_neg hlast]⟩
    have hne : ¬(s.winInactiveList.erase w = [] ∧ s.winInactiveList.erase w = []) :=
      fun h => hlast (honly.mp h.1)
    simp only [Windows.winFree, if_pos hact, if_neg hne, bind, Except.bind]

theorem winFree_inv (h : Inv s) (hw : w ∈ s.live) (hact : s.active w = false)
    (hsafe : Safe s (.free w)) : ∃ s', s.winFree w = .ok s' ∧ Inv s' := by
  obtain ⟨hooks, hok, hhooks⟩ := winFree_spec h hw hact
  have hnot : w ∉ s.winActiveList := by rw [h.1.flag, hact]; exact Bool.false_ne_true
  have hgone : w ∉ s.live.erase w := h.1.nodup.not_mem_erase
  have hone : ∀ v, s.winActiveList.count v + (s.winInactiveList.erase w).count v =
      if v ∈ s.live.erase w then 1 else 0 := by
    intro v
    have hv := h.1.one_list v
    by_cases hvw : v = w
    · subst hvw
      rw [if_pos hw] at hv
      rw [if_neg hgone, List.count_erase_self]
      have := List.count_eq_zero_of_not_mem hnot
      omega
    · rw [List.count_erase_of_ne hvw, hv]
      simp only [List.mem_erase_of_ne hvw]
  refine ⟨_, hok, ⟨⟨hone, ?_, ?_⟩, h.1.flag, h.1.nodup.erase w⟩, h.2⟩
  · by_cases hlast : s.winInactiveList = [w]
    · -- the last window: no other is active
      rw [if_pos hlast] at hhooks
      have hnone : s.winActiveList = [] := by
        by_contra hne
        exact hsafe ⟨hlast, hne⟩
      have hnil : s.live.erase w = [] := by
        apply List.eq_nil_iff_forall_not_mem.mpr
        intro v hv
        have hone' := hone v
        rw [if_pos hv, hnone, hlast] at hone'
        simp at hone'
      constructor
      · rintro ⟨b, hb⟩
        cases hhooks.symm.trans hb
      · intro hne
        exact absurd hnil hne
    · rw [if_neg hlast] at hhooks
      subst hhooks
      have hother : ∃ v ∈ s.winInactiveList, v ≠ w := by
        by_contra hall
        have hcount := h.1.one_list w
        rw [if_pos hw, List.count_eq_zero_of_not_mem hnot, Nat.zero_add] at hcount
        have hrep : s.winInactiveList = List.replicate s.winInactiveList.length w :=
          List.eq_replicate_of_mem fun v hv => by_contra fun hvw => hall ⟨v, hv, hvw⟩
        rw [hrep, List.count_replicate_self] at hcount
        rw [hcount] at hrep
        exact hlast hrep
      obtain ⟨v, hv, hvw⟩ := hother
      have hlive : v ∈ s.live.erase w := (List.mem_erase_of_ne hvw).mpr (h.1.mem_live (.inr hv))
      exact ⟨fun _ => List.ne_nil_of_mem hlive, fun _ => h.1.registered.mpr (List.ne_nil_of_mem hw)⟩
  · by_cases hlast : s.winInactiveList = [w]
    · rw [if_pos hlast] at hhooks
      constructor
      · intro hp
        cases hhooks.symm.trans hp
      · intro hne
        exact absurd ⟨hlast, hne⟩ hsafe
    · rw [if_neg hlast] at hhooks
      subst hhooks
      exact h.1.polled

theorem step_inv {e : Event} (h : Inv s) (hlegal : Legal s e) (hsafe : Safe s e) :
    ∃ s', step s e = .ok s' ∧ Inv s' := by
  cases e with
  | create w => exact ⟨_, rfl, winInit_inv h hlegal⟩
  | free w => exact winFree_inv h hlegal.1 hlegal.2 hsafe
  | enqueue w t delay granted => exact winEnqueueOp_inv h hlegal t delay granted
  | move w t => exact ⟨_, rfl, (moveUserOp_inv h w t).1⟩
  | issued w t => exact opCompleted_inv h hlegal.1 hlegal.2
  | granted w => exact setActive_if h hlegal _
  | locked w t => exact setActive_if h hlegal _

theorem safe_of_sound {s' : Windows} {e : Event} (h : Inv s) (hlegal : Legal s e)
    (hok : step s e = .ok s') (hs' : Sound s') : Safe s e := by
  cases e with
  | free w =>
    intro hbad
    obtain ⟨hlast, hne⟩ := hbad
    obtain ⟨hooks, hfree, hhooks⟩ := winFree_spec h hlegal.1 hlegal.2
    rw [if_pos hlast] at hhooks
    have heq := Except.ok.inj (hfree.symm.trans hok)
    subst heq
    have hp := hs'.polled.mpr hne
    cases hhooks.symm.trans hp
  | _ => trivial

theorem start_inv {hooks : List HookSlot} (h : ∀ b, some (.makeProgressGlobal, b) ∉ hooks) :
    Inv (start hooks) := by
  have hhook : ∀ b, (start hooks).hook ≠ some (.makeProgressGlobal, b) := by
    intro b hb
    simp only [Windows.hook, Option.join_eq_some_iff] at hb
    exact h b (List.mem_of_getElem? hb)
  refine ⟨⟨⟨fun w => by simp [start], ?_, ?_⟩, by simp [start], List.nodup_nil⟩,
    fun w => ⟨∅, by simp [start], rfl⟩⟩
  · constructor
    · rintro ⟨b, hb⟩
      exact absurd hb (hhook b)
    · intro hne
      exact absurd rfl hne
  · constructor
    · intro hp
      exact absurd hp (hhook true)
    · intro hne
      exact absurd rfl hne

/-- Every run goes through, with the lists and the hook in agreement in all its states, exactly when
no window is freed as the only inactive one while another is active. -/
theorem lists_agree_iff (hooks : List HookSlot) (es : List Event)
    (h : ∀ b, some (.makeProgressGlobal, b) ∉ hooks) (hlegal : Along step Legal (start hooks) es) :
    ((∃ t, run step (start hooks) es = .ok t) ∧
      ∀ k m, run step (start hooks) (es.take k) = .ok m → Sound m) ↔ Along step Safe (start hooks) es :=
  good_run_iff_along (fun _ h => h.1.toSound) (fun _ _ => step_inv) (fun _ _ _ => safe_of_sound)
    (start_inv h) hlegal

instance decidableLegal (s : Windows) : (e : Event) → Decidable (Legal s e)
  | .create _ | .free _ | .issued _ _ | .enqueue _ _ _ _ | .move _ _ | .granted _ | .locked _ _ => by
    unfold Legal; infer_instance

instance decidableSafe (s : Windows) : (e : Event) → Decidable (Safe s e)
  | .free w => inferInstanceAs (Decidable ¬(s.winInactiveList = [w] ∧ s.winActiveList ≠ []))
  | .create _ | .issued _ _ | .enqueue _ _ _ _ | .move _ _ | .granted _ | .locked _ _ =>
    inferInstanceAs (Decidable True)

theorem lists_agree_two :
    (∃ t, run step (start [some (.other 0, true), none]) [.create 0, .create 1, .enqueue 0 3 false true,
      .issued 0 3, .free 1, .free 0] = .ok t) ∧
    ∀ k m, run step (start [some (.other 0, true), none]) (([.create 0, .create 1, .enqueue 0 3 false true,
      .issued 0 3, .free 1, .free 0] : List Event).take k) = .ok m → Sound m :=
  (lists_agree_iff [some (.other 0, true), none] [.create 0, .create 1, .enqueue 0 3 false true,
      .issued 0 3, .free 1, .free 0] (by simp) (by decide)).mpr (by decide)

theorem hook_lost :
    ∃ es t, Along step Legal (start [none]) es ∧ run step (start [none]) es = .ok t ∧
      t.winActiveList = [0] ∧ t.live = [0] ∧ ¬t.Registered ∧ ¬Sound t := by
  refine ⟨[.create 0, .create 1, .enqueue 0 3 false true, .free 1], _, by decide, rfl, rfl, rfl, ?_, ?_⟩
  · rintro ⟨b, hb⟩
    cases hb
  · intro h
    have hp := h.polled.mpr (by decide)
    cases hp

end FgMpi.Rma.WindowLists
