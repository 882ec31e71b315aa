import FgMpi.Rma.LockExclusion

namespace FgMpi.Rma.LockQueue
open Machine.Checked Machine.Runs

/-- Nothing but locks, pools and the globals of `MPIDI_CH3I_Release_lock` is different. -/
structure SameQueues (s s' : Process) : Prop where
  queue : ∀ i, (s'.wins i).queue = (s.wins i).queue
  next : s'.next = s.next
  granted : s'.granted = s.granted
  performed : s'.performed = s.performed
  freed : s'.freed = s.freed

variable {s s' : Process} {i j id : Nat} {w : Win}

theorem sameQueues_setWin (h : w.queue = (s.wins i).queue) : SameQueues s (s.setWin i w) := by
  refine ⟨?_, rfl, rfl, rfl, rfl⟩
  intro j
  by_cases hj : j = i
  · rw [hj, Process.setWin_same]
    exact h
  · rw [s.setWin_other hj]

theorem sameQueues_reenter (s : Process) (i id : Nat) : SameQueues s (reenter s i id) := by
  have hset : ∀ c hs, SameQueues s (s.setWin i { s.wins i with
      sharedLockRefCnt := c, holders := hs }) := fun c hs => sameQueues_setWin rfl
  unfold reenter releaseHead
  dsimp only
  split_ifs <;> exact ⟨(hset _ _).queue, rfl, rfl, rfl, rfl⟩

structure Kept (i : Nat) (I : Process → Prop) : Prop where
  nodup : ∀ s, I s → ((s.wins i).queue.map (·.id)).Nodup
  same : ∀ s s', SameQueues s s' → I s → I s'
  serve : ∀ s e, I s → e ∈ (s.wins i).queue → e.allDataRecved = true →
    I (serve reenter s i e (acquire (s.wins i) e.id e.pkt.lock))

theorem serve_reenter_queue (s : Process) (i : Nat) (e : Entry) (w : Win) :
    ((serve reenter s i e w).wins i).queue = w.queue.filter (·.id ≠ e.id) := by
  unfold serve performOpInLockQueue lockEntryFree
  dsimp only
  split
  · rw [Process.setWin_same, (sameQueues_reenter _ i e.id).queue, Process.setWin_same]
  · rw [Process.setWin_same, Process.setWin_same]

section Rule
variable {i : Nat} {I : Process → Prop}

variable {s : Process}

theorem Kept.walk (h : Kept i I) (hs : I s) {es : List Entry}
    (hes : ∀ e ∈ es, e ∈ (s.wins i).queue) (hnodup : (es.map (·.id)).Nodup) :
    I (walk i s es) := by
  induction es generalizing s with
  | nil => exact hs
  | cons e es ih =>
    rw [List.map_cons, List.nodup_cons] at hnodup
    have hrest : ∀ x ∈ es, x ∈ (s.wins i).queue := fun x hx => hes x (List.mem_cons_of_mem _ hx)
    rw [LockQueue.walk]
    split
    · rename_i hready
      split
      · rename_i w hw
        obtain ⟨-, rfl⟩ := grants_of_tryAcquire hw
        have hserve := h.serve s e hs (hes e List.mem_cons_self) hready
        dsimp only
        split
        · exact hserve
        · refine ih hserve ?_ hnodup.2
          intro x hx
          have hne : x.id ≠ e.id := fun heq => hnodup.1 (heq ▸ List.mem_map_of_mem hx)
          rw [serve_reenter_queue]
          exact List.mem_filter.mpr ⟨hrest x hx, by simpa using hne⟩
      · exact ih hs hrest hnodup.2
    · exact ih hs hrest hnodup.2

theorem Kept.passes (h : Kept i I) (hs : I s) (fuel temp : Nat) : I (passes i fuel temp s) := by
  induction fuel generalizing temp s with
  | zero => exact hs
  | succ fuel ih =>
    have hclear : I (LockQueue.clearLock s i) := h.same s _ (sameQueues_setWin rfl) hs
    have hwalk := h.walk hclear (fun e he => he) (h.nodup _ hclear)
    rw [LockQueue.passes]
    split_ifs
    · exact ih hwalk _
    · exact hwalk
    · exact ih hwalk _
    · exact hwalk

theorem Kept.releaseLock (h : Kept i I) (hs : I s) (id : Nat) : I (releaseLock s i id) := by
  have hhead : I (releaseHead s i id).1 := h.same s _ (sameQueues_reenter s i id) hs
  unfold LockQueue.releaseLock
  split
  · rename_i s' heq
    rw [heq] at hhead
    exact hhead
  · rename_i s' heq
    rw [heq] at hhead
    have hpasses : I (LockQueue.passes i ((s'.wins i).queue.length + 1) s'.enteredCount s') :=
      h.passes hhead _ _
    exact h.same (LockQueue.passes i ((s'.wins i).queue.length + 1) s'.enteredCount s') _
      ⟨fun _ => rfl, rfl, rfl, rfl, rfl⟩ hpasses

end Rule

structure Done (s : Process) (log : List Nat) : Prop where
  nodup : log.Nodup
  old : ∀ x ∈ log, x < s.next
  gone : ∀ i, ∀ e ∈ (s.wins i).queue, e.id ∉ log

structure Once (s : Process) : Prop where
  queued : ∀ i, ((s.wins i).queue.map (·.id)).Nodup
  apart : ∀ i j, i ≠ j → ∀ e ∈ (s.wins i).queue, ∀ f ∈ (s.wins j).queue, e.id ≠ f.id
  fresh : ∀ i, ∀ e ∈ (s.wins i).queue, e.id < s.next
  granted : Done s s.granted
  performed : Done s s.performed
  freed : Done s s.freed

theorem mem_of_ids {q q' : List Entry} (h : q'.map (·.id) = q.map (·.id)) {x : Entry} (hx : x ∈ q') :
    ∃ y ∈ q, y.id = x.id := by
  have hmem : x.id ∈ q'.map (·.id) := List.mem_map_of_mem hx
  rw [h] at hmem
  exact List.mem_map.mp hmem

structure SameIds (s s' : Process) : Prop where
  queue : ∀ i, (s'.wins i).queue.map (·.id) = (s.wins i).queue.map (·.id)
  next : s'.next = s.next
  granted : s'.granted = s.granted
  performed : s'.performed = s.performed
  freed : s'.freed = s.freed

theorem SameQueues.ids (h : SameQueues s s') : SameIds s s' :=
  ⟨fun i => by rw [h.queue], h.next, h.granted, h.performed, h.freed⟩

theorem Done.sameIds {log : List Nat} (h : Done s log) (hsame : SameIds s s') : Done s' log := by
  refine ⟨h.nodup, ?_, ?_⟩
  · rw [hsame.next]
    exact h.old
  · intro i x hx
    obtain ⟨y, hy, heq⟩ := mem_of_ids (hsame.queue i) hx
    rw [← heq]
    exact h.gone i y hy

theorem Once.sameIds (h : Once s) (hsame : SameIds s s') : Once s' := by
  refine ⟨?_, ?_, ?_, hsame.granted ▸ h.granted.sameIds hsame,
    hsame.performed ▸ h.performed.sameIds hsame, hsame.freed ▸ h.freed.sameIds hsame⟩
  · intro i
    rw [hsame.queue]
    exact h.queued i
  · intro i j hij x hx y hy
    obtain ⟨x', hx', hxeq⟩ := mem_of_ids (hsame.queue i) hx
    obtain ⟨y', hy', hyeq⟩ := mem_of_ids (hsame.queue j) hy
    rw [← hxeq, ← hyeq]
    exact h.apart i j hij x' hx' y' hy'
  · intro i x hx
    obtain ⟨y, hy, heq⟩ := mem_of_ids (hsame.queue i) hx
    rw [← heq, hsame.next]
    exact h.fresh i y hy

theorem Once.same (h : Once s) (hsame : SameQueues s s') : Once s' :=
  h.sameIds hsame.ids

structure Taken (s s' : Process) (i : Nat) (e : Entry) : Prop where
  queue : (s'.wins i).queue = (s.wins i).queue.filter (·.id ≠ e.id)
  others : ∀ j, j ≠ i → (s'.wins j).queue = (s.wins j).queue
  next : s'.next = s.next

section Take
variable {s s' : Process} {i : Nat} {e : Entry}

theorem Taken.mem (h : Taken s s' i e) {j : Nat} {x : Entry} (hx : x ∈ (s'.wins j).queue) :
    x ∈ (s.wins j).queue ∧ (j = i → x.id ≠ e.id) := by
  by_cases hj : j = i
  · subst hj
    rw [h.queue, List.mem_filter] at hx
    exact ⟨hx.1, fun _ => by simpa using hx.2⟩
  · rw [h.others j hj] at hx
    exact ⟨hx, fun heq => absurd heq hj⟩

theorem Taken.ne (h : Taken s s' i e) (hs : Once s) (he : e ∈ (s.wins i).queue) {j : Nat} {x : Entry}
    (hx : x ∈ (s'.wins j).queue) : x.id ≠ e.id := by
  obtain ⟨hmem, hne⟩ := h.mem hx
  by_cases hj : j = i
  · exact hne hj
  · exact hs.apart j i hj x hmem e he

theorem Done.keep {log : List Nat} (hlog : Done s log) (h : Taken s s' i e) : Done s' log :=
  ⟨hlog.nodup, fun x hx => h.next ▸ hlog.old x hx, fun j x hx => hlog.gone j x (h.mem hx).1⟩

theorem Done.add {log : List Nat} (hlog : Done s log) (h : Taken s s' i e) (hs : Once s)
    (he : e ∈ (s.wins i).queue) : Done s' (log ++ [e.id]) := by
  refine ⟨?_, ?_, ?_⟩
  · rw [List.nodup_append]
    refine ⟨hlog.nodup, by simp, ?_⟩
    intro a ha b hb heq
    rw [List.mem_singleton.mp hb] at heq
    exact hlog.gone i e he (heq ▸ ha)
  · intro x hx
    rw [h.next]
    rcases List.mem_append.mp hx with hx | hx
    · exact hlog.old x hx
    · rw [List.mem_singleton.mp hx]
      exact hs.fresh i e he
  · intro j x hx hmem
    rcases List.mem_append.mp hmem with hm | hm
    · exact hlog.gone j x (h.mem hx).1 hm
    · exact h.ne hs he hx (List.mem_singleton.mp hm)

theorem Once.take (hs : Once s) (he : e ∈ (s.wins i).queue) (h : Taken s s' i e)
    (hgranted : s'.granted = s.granted ++ [e.id]) (hperformed : s'.performed = s.performed ++ [e.id])
    (hfreed : s'.freed = s.freed) : Once s' := by
  refine ⟨?_, ?_, ?_, ?_, ?_, ?_⟩
  · intro j
    by_cases hj : j = i
    · subst hj
      rw [h.queue]
      exact (hs.queued j).sublist (List.filter_sublist.map _)
    · rw [h.others j hj]
      exact hs.queued j
  · intro j k hjk x hx y hy
    exact hs.apart j k hjk x (h.mem hx).1 y (h.mem hy).1
  · intro j x hx
    rw [h.next]
    exact hs.fresh j x (h.mem hx).1
  · rw [hgranted]
    exact hs.granted.add h hs he
  · rw [hperformed]
    exact hs.performed.add h hs he
  · rw [hfreed]
    exact hs.freed.keep h

end Take

structure Untouched (x : Nat) (s : Process) : Prop where
  old : x < s.next
  freed : x ∉ s.freed
  gone : ∀ i, ∀ e ∈ (s.wins i).queue, e.id ≠ x

theorem Untouched.same {x : Nat} (h : Untouched x s) (hsame : SameQueues s s') : Untouched x s' := by
  refine ⟨hsame.next ▸ h.old, hsame.freed ▸ h.freed, ?_⟩
  intro i
  rw [hsame.queue]
  exact h.gone i

variable {e : Entry}

theorem lockEntryFree_once (h : Once s) (hun : Untouched e.id s) : Once (lockEntryFree s i e) := by
  have hsame : SameQueues s (s.setWin i { s.wins i with
      pool := (s.wins i).pool + 1
      currentTargetLockDataBytes :=
        if e.data then (s.wins i).currentTargetLockDataBytes - e.pkt.bufSize
        else (s.wins i).currentTargetLockDataBytes }) := sameQueues_setWin rfl
  have hmid := h.same hsame
  refine ⟨hmid.queued, hmid.apart, hmid.fresh, ⟨hmid.granted.nodup, hmid.granted.old, hmid.granted.gone⟩,
    ⟨hmid.performed.nodup, hmid.performed.old, hmid.performed.gone⟩, ?_, ?_, ?_⟩
  · change (s.freed ++ [e.id]).Nodup
    rw [List.nodup_append]
    refine ⟨h.freed.nodup, by simp, ?_⟩
    intro a ha b hb heq
    rw [List.mem_singleton.mp hb] at heq
    exact hun.freed (heq ▸ ha)
  · intro x hx
    rcases List.mem_append.mp hx with hx | hx
    · exact h.freed.old x hx
    · rw [List.mem_singleton.mp hx]
      exact hun.old
  · intro j x hx hmem
    have hx' : x ∈ (s.wins j).queue := hsame.queue j ▸ hx
    rcases List.mem_append.mp hmem with hm | hm
    · exact h.freed.gone j x hx' hm
    · exact hun.gone j x hx' (List.mem_singleton.mp hm)

def performing (s : Process) (i : Nat) (e : Entry) (w : Win) : Process :=
  { s.setWin i { w with queue := w.queue.filter (·.id ≠ e.id) } with
    granted := s.granted ++ [e.id], performed := s.performed ++ [e.id] }

theorem serve_eq (release : Process → Nat → Nat → Process) (s : Process) (i : Nat) (e : Entry)
    (w : Win) : serve release s i e w = lockEntryFree
      (if e.pkt.passing then release (performing s i e w) i e.id else performing s i e w) i e := rfl

theorem performing_once (h : Once s) (he : e ∈ (s.wins i).queue) (hw : w.queue = (s.wins i).queue) :
    Once (performing s i e w) ∧ Untouched e.id (performing s i e w) := by
  have htaken : Taken s (performing s i e w) i e := by
    refine ⟨?_, ?_, rfl⟩
    · rw [performing, Process.setWin_same, hw]
    · intro j hj
      rw [performing, s.setWin_other hj]
  refine ⟨h.take he htaken rfl rfl rfl, h.fresh i e he, h.freed.gone i e he, ?_⟩
  intro j x hx
  exact htaken.ne h he hx

theorem once_serve (h : Once s) (he : e ∈ (s.wins i).queue) :
    Once (serve reenter s i e (acquire (s.wins i) e.id e.pkt.lock)) := by
  obtain ⟨honce, hun⟩ := performing_once (w := acquire (s.wins i) e.id e.pkt.lock) h he rfl
  rw [serve_eq]
  split
  · have hsame := sameQueues_reenter (performing s i e (acquire (s.wins i) e.id e.pkt.lock)) i e.id
    exact lockEntryFree_once (honce.same hsame) (hun.same hsame)
  · exact lockEntryFree_once honce hun

theorem untouched_serve {x : Nat} (h : Untouched x s) (he : e ∈ (s.wins i).queue) :
    Untouched x (serve reenter s i e (acquire (s.wins i) e.id e.pkt.lock)) := by
  have hne := h.gone i e he
  have hperform : Untouched x (performing s i e (acquire (s.wins i) e.id e.pkt.lock)) := by
    refine ⟨h.old, h.freed, ?_⟩
    intro j y hy
    by_cases hj : j = i
    · subst hj
      rw [performing, Process.setWin_same] at hy
      exact h.gone j y (List.mem_of_mem_filter hy)
    · rw [performing, s.setWin_other hj] at hy
      exact h.gone j y hy
  have hfree : ∀ t, Untouched x t → Untouched x (lockEntryFree t i e) := by
    intro t ht
    have hsame : SameQueues t (t.setWin i { t.wins i with
        pool := (t.wins i).pool + 1
        currentTargetLockDataBytes :=
          if e.data then (t.wins i).currentTargetLockDataBytes - e.pkt.bufSize
          else (t.wins i).currentTargetLockDataBytes }) := sameQueues_setWin rfl
    refine ⟨ht.old, ?_, (ht.same hsame).gone⟩
    intro hmem
    rcases List.mem_append.mp hmem with hm | hm
    · exact ht.freed hm
    · exact hne (List.mem_singleton.mp hm).symm
  rw [serve_eq]
  split
  · exact hfree _ (hperform.same (sameQueues_reenter _ i e.id))
  · exact hfree _ hperform

theorem kept_once (i : Nat) : Kept i Once where
  nodup _ h := h.queued i
  same _ _ hsame h := h.same hsame
  serve _ _ h he _ := once_serve h he

theorem kept_untouched (i x : Nat) : Kept i fun s => Once s ∧ Untouched x s where
  nodup _ h := h.1.queued i
  same _ _ hsame h := ⟨h.1.same hsame, h.2.same hsame⟩
  serve _ _ h he _ := ⟨once_serve h.1 he, untouched_serve h.2 he⟩

theorem once_serve_releaseLock (h : Once s) (he : e ∈ (s.wins i).queue) (hw : w.queue = (s.wins i).queue) :
    Once (serve releaseLock s i e w) := by
  obtain ⟨honce, hun⟩ := performing_once h he hw
  rw [serve_eq]
  split
  · obtain ⟨honce', hun'⟩ := (kept_untouched i e.id).releaseLock ⟨honce, hun⟩ e.id
    exact lockEntryFree_once honce' hun'
  · exact lockEntryFree_once honce hun

def Waits (j id : Nat) (s : Process) : Prop :=
  ∃ x ∈ (s.wins j).queue, x.id = id ∧ x.allDataRecved = false

theorem Waits.same (h : Waits j id s)
    (hqueue : ∀ i, (s'.wins i).queue = (s.wins i).queue) : Waits j id s' := by
  unfold Waits
  rw [hqueue]
  exact h

theorem Waits.performing (h : Waits j id s) (hw : w.queue = (s.wins i).queue) (hne : j = i → id ≠ e.id) :
    Waits j id (performing s i e w) := by
  obtain ⟨x, hx, hid, hdata⟩ := h
  refine ⟨x, ?_, hid, hdata⟩
  unfold LockQueue.performing
  by_cases hj : j = i
  · subst hj
    rw [Process.setWin_same]
    refine List.mem_filter.mpr ⟨hw ▸ hx, ?_⟩
    rw [hid]
    simpa using hne rfl
  · rw [s.setWin_other hj]
    exact hx

theorem lockEntryFree_queue (s : Process) (i : Nat) (e : Entry) (j : Nat) :
    ((lockEntryFree s i e).wins j).queue = (s.wins j).queue := by
  unfold lockEntryFree
  dsimp only
  by_cases hj : j = i
  · rw [hj, Process.setWin_same]
  · rw [s.setWin_other hj]

theorem waits_ne_ready (h : Waits j id s) (honce : Once s)
    (he : e ∈ (s.wins j).queue) (hready : e.allDataRecved = true) : id ≠ e.id := by
  obtain ⟨x, hx, hid, hdata⟩ := h
  intro heq
  have hxe : x = e := List.inj_on_of_nodup_map (honce.queued j) hx he (hid.trans heq)
  rw [hxe, hready] at hdata
  cases hdata

theorem kept_waits (i j id : Nat) : Kept i fun s => Once s ∧ Waits j id s where
  nodup _ h := h.1.queued i
  same _ _ hsame h := ⟨h.1.same hsame, h.2.same hsame.queue⟩
  serve s e h he hready := by
    refine ⟨once_serve h.1 he, ?_⟩
    have hperforming : Waits j id (performing s i e (acquire (s.wins i) e.id e.pkt.lock)) := by
      refine h.2.performing rfl ?_
      intro hj
      subst hj
      exact waits_ne_ready h.2 h.1 he hready
    rw [serve_eq]
    split
    · exact (hperforming.same (sameQueues_reenter _ i e.id).queue).same (lockEntryFree_queue _ i e)
    · exact hperforming.same (lockEntryFree_queue _ i e)

theorem waits_serve_releaseLock (h : Once s)
    (he : e ∈ (s.wins i).queue) (hw : w.queue = (s.wins i).queue) (hwaits : Waits j id s)
    (hne : j = i → id ≠ e.id) : Waits j id (serve releaseLock s i e w) := by
  have hperforming := hwaits.performing hw hne
  rw [serve_eq]
  split
  · have hrelease := (kept_waits i j id).releaseLock ⟨(performing_once h he hw).1, hperforming⟩ e.id
    exact hrelease.2.same (lockEntryFree_queue _ i e)
  · exact hperforming.same (lockEntryFree_queue _ i e)

def Idle (w : Win) : Prop :=
  w.currentLockType = none → ∀ e ∈ w.queue, e.allDataRecved = false

theorem reenter_type (s : Process) (i id : Nat) :
    ((reenter s i id).wins i).currentLockType = (s.wins i).currentLockType := by
  unfold reenter releaseHead
  dsimp only
  split_ifs <;> simp

theorem lockEntryFree_type (s : Process) (i : Nat) (e : Entry) :
    ((lockEntryFree s i e).wins i).currentLockType = (s.wins i).currentLockType := by
  simp [lockEntryFree]

theorem performing_type (s : Process) (i : Nat) (e : Entry) (w : Win) :
    ((performing s i e w).wins i).currentLockType = w.currentLockType := by
  simp [performing]

theorem serve_reenter_type (s : Process) (i : Nat) (e : Entry) (w : Win) :
    ((serve reenter s i e w).wins i).currentLockType = w.currentLockType := by
  rw [serve_eq, lockEntryFree_type]
  split
  · rw [reenter_type, performing_type]
  · rw [performing_type]

theorem walk_keeps_type (h : (s.wins i).currentLockType ≠ none)
    (es : List Entry) : ((walk i s es).wins i).currentLockType ≠ none := by
  induction es generalizing s with
  | nil => exact h
  | cons e es ih =>
    rw [walk]
    split
    · split
      · rename_i w hw
        obtain ⟨-, rfl⟩ := grants_of_tryAcquire hw
        have hserve : ((serve reenter s i e (acquire (s.wins i) e.id e.pkt.lock)).wins i).currentLockType
            ≠ none := by
          rw [serve_reenter_type]
          exact Option.some_ne_none _
        dsimp only
        split
        · exact hserve
        · exact ih hserve
      · exact ih h
    · exact ih h

theorem walk_free {es : List Entry} (h : ((walk i s es).wins i).currentLockType = none) :
    walk i s es = s ∧ ∀ e ∈ es, e.allDataRecved = false := by
  induction es with
  | nil => exact ⟨rfl, fun e he => nomatch he⟩
  | cons e es ih =>
    rw [walk] at h ⊢
    split at h
    · exfalso
      split at h
      · rename_i w hw
        obtain ⟨-, rfl⟩ := grants_of_tryAcquire hw
        have hserve : ((serve reenter s i e (acquire (s.wins i) e.id e.pkt.lock)).wins i).currentLockType
            ≠ none := by
          rw [serve_reenter_type]
          exact Option.some_ne_none _
        dsimp only at h
        split at h
        · exact hserve h
        · exact walk_keeps_type hserve es h
      · rename_i hacq
        exact walk_keeps_type (type_of_tryAcquire hacq) es h
    · rename_i hready
      rw [if_neg hready]
      obtain ⟨heq, hrest⟩ := ih h
      refine ⟨heq, ?_⟩
      intro x hx
      rcases List.mem_cons.mp hx with rfl | hx
      · simpa using hready
      · exact hrest x hx

theorem walk_idle (s : Process) (i : Nat) : Idle ((walk i s (s.wins i).queue).wins i) := by
  intro hnone
  obtain ⟨heq, hready⟩ := walk_free hnone
  rw [heq]
  exact hready

theorem passes_idle (i fuel temp : Nat) (s : Process) : Idle ((passes i (fuel + 1) temp s).wins i) := by
  induction fuel generalizing temp s with
  | zero =>
    rw [passes]
    split_ifs
    all_goals exact walk_idle _ i
  | succ fuel ih =>
    rw [passes]
    split_ifs
    · exact ih _ _
    · exact walk_idle _ i
    · exact ih _ _
    · exact walk_idle _ i

theorem releaseLock_idle (id : Nat) (hflag : s.enteredFlag = false) (h : Idle (s.wins i)) :
    Idle ((releaseLock s i id).wins i) ∧ (releaseLock s i id).enteredFlag = false := by
  unfold releaseLock
  cases hhead : releaseHead s i id with
  | mk s' goes =>
    cases goes with
    | true => exact ⟨passes_idle i _ _ s', rfl⟩
    | false =>
      have hqueue := (sameQueues_reenter s i id).queue i
      have htype := reenter_type s i id
      have hflag' : s'.enteredFlag = s.enteredFlag := by
        have h2 := congrArg Prod.snd hhead
        have h1 := congrArg Prod.fst hhead
        unfold releaseHead at h1 h2
        dsimp only at h1 h2
        split_ifs at h1 h2 <;> simp_all [← h1]
      rw [reenter, hhead] at hqueue htype
      refine ⟨?_, hflag'.trans hflag⟩
      intro hnone
      rw [htype] at hnone
      rw [hqueue]
      exact h hnone

structure Serving (s : Process) : Prop where
  flag : s.enteredFlag = false
  idle : ∀ i, Idle (s.wins i)
  once : Once s
  /- Kept data is waited for by its entry; dropped data may outlive it. -/
  waits : ∀ d ∈ s.drains, d.dropData = false → ∀ id ∈ d.entry, Waits d.win id s
  drains : (s.drains.filterMap (·.entry)).Nodup
  fresh : ∀ id ∈ s.drains.filterMap (·.entry), id < s.next

theorem init_serving (pool : Nat) : Serving (Process.init pool) := by
  have hdone : Done (Process.init pool) [] :=
    ⟨List.nodup_nil, fun x hx => (nomatch hx), fun i e he => (nomatch he)⟩
  exact {
    flag := rfl
    idle := fun _ _ e he => nomatch he
    once := ⟨fun _ => List.nodup_nil, fun _ _ _ e he => (nomatch he), fun _ e he => (nomatch he),
      hdone, hdone, hdone⟩
    waits := fun d hd => nomatch hd
    drains := List.nodup_nil
    fresh := fun id hid => nomatch hid }

section Handlers
variable {s s' : Process} {i : Nat}

theorem Serving.change (h : Serving s) (hframe : Frame i s s') (hflag : s'.enteredFlag = false)
    (hidle : Idle (s'.wins i)) (honce : Once s')
    (hwaits : ∀ d ∈ s.drains, d.dropData = false → ∀ id ∈ d.entry, Waits d.win id s') :
    Serving s' where
  flag := hflag
  idle j := by
    by_cases hj : j = i
    · rw [hj]
      exact hidle
    · rw [hframe.wins j hj]
      exact h.idle j
  once := honce
  waits := by
    rw [hframe.drains]
    exact hwaits
  drains := by
    rw [hframe.drains]
    exact h.drains
  fresh := by
    rw [hframe.drains, hframe.next]
    exact h.fresh

theorem releaseLock_serving (h : Serving s) (id : Nat) : Serving (releaseLock s i id) := by
  obtain ⟨hidle, hflag⟩ := releaseLock_idle id h.flag (h.idle i)
  refine h.change (frame_releaseLock s i id) hflag hidle ((kept_once i).releaseLock h.once id) ?_
  intro d hd hdrop x hx
  exact ((kept_waits i d.win x).releaseLock ⟨h.once, h.waits d hd hdrop x hx⟩ id).2

theorem Serving.lock (h : Serving s) {w : Win} (hqueue : w.queue = (s.wins i).queue)
    (htype : w.currentLockType ≠ none) : Serving (s.setWin i w) := by
  have hsame : SameQueues s (s.setWin i w) := sameQueues_setWin hqueue
  refine h.change (frame_setWin s i w) h.flag ?_ (h.once.same hsame) ?_
  · rw [Process.setWin_same]
    exact fun hnone => absurd hnone htype
  · intro d hd hdrop id hid
    exact (h.waits d hd hdrop id hid).same hsame.queue

theorem Once.count_up (h : Once s) : Once { s with next := s.next + 1 } :=
  have hlog : ∀ {log}, Done s log → Done { s with next := s.next + 1 } log := fun hdone =>
    ⟨hdone.nodup, fun x hx => Nat.lt_succ_of_lt (hdone.old x hx), hdone.gone⟩
  ⟨h.queued, h.apart, fun j e he => Nat.lt_succ_of_lt (h.fresh j e he), hlog h.granted,
    hlog h.performed, hlog h.freed⟩

theorem Serving.count_up (h : Serving s) : Serving { s with next := s.next + 1 } :=
  ⟨h.flag, h.idle, h.once.count_up, h.waits, h.drains, fun id hid => Nat.lt_succ_of_lt (h.fresh id hid)⟩

theorem append_queue (s : Process) (i : Nat) (e : Entry) (bytes : Int) {j : Nat} {x : Entry}
    (hx : x ∈ ((append s i e bytes).wins j).queue) : x ∈ (s.wins j).queue ∨ (j = i ∧ x = e) := by
  unfold append at hx
  by_cases hj : j = i
  · subst hj
    rw [Process.setWin_same] at hx
    rcases List.mem_append.mp hx with hx | hx
    · exact .inl hx
    · exact .inr ⟨rfl, List.mem_singleton.mp hx⟩
  · rw [s.setWin_other hj] at hx
    exact .inl hx

theorem append_once (h : Once s) {e : Entry} (he : e.id = s.next) (bytes : Int) :
    Once (append { s with next := s.next + 1 } i e bytes) := by
  have hup := h.count_up
  have hlog : ∀ {log}, Done s log → Done { s with next := s.next + 1 } log →
      Done (append { s with next := s.next + 1 } i e bytes) log := by
    intro log hold hdone
    refine ⟨hdone.nodup, hdone.old, ?_⟩
    intro j x hx hmem
    rcases append_queue _ i e bytes hx with hx | ⟨-, rfl⟩
    · exact hdone.gone j x hx hmem
    · exact absurd (hold.old _ hmem) (by omega)
  refine ⟨?_, ?_, ?_, hlog h.granted hup.granted, hlog h.performed hup.performed,
    hlog h.freed hup.freed⟩
  · intro j
    unfold append
    by_cases hj : j = i
    · subst hj
      rw [Process.setWin_same, List.map_append, List.nodup_append]
      refine ⟨h.queued j, by simp, ?_⟩
      intro a ha b hb
      obtain ⟨x, hx, rfl⟩ := List.mem_map.mp ha
      rw [List.map_singleton, List.mem_singleton] at hb
      have hlt := h.fresh j x hx
      omega
    · rw [Process.setWin_other _ hj]
      exact h.queued j
  · intro j k hjk x hx y hy
    rcases append_queue _ i e bytes hx with hx' | ⟨hj, rfl⟩
    · rcases append_queue _ i e bytes hy with hy' | ⟨-, rfl⟩
      · exact h.apart j k hjk x hx' y hy'
      · have hlt := h.fresh j x hx'
        omega
    · rcases append_queue _ i _ bytes hy with hy' | ⟨hk, -⟩
      · have hlt := h.fresh k y hy'
        omega
      · exact absurd (hj.trans hk.symm) hjk
  · intro j x hx
    change x.id < s.next + 1
    rcases append_queue _ i e bytes hx with hx | ⟨-, rfl⟩
    · exact hup.fresh j x hx
    · omega

theorem append_waits (s : Process) (i : Nat) (e : Entry) (bytes : Int) {j id : Nat}
    (h : Waits j id s) : Waits j id (append s i e bytes) := by
  obtain ⟨x, hx, hid⟩ := h
  refine ⟨x, ?_, hid⟩
  unfold append
  by_cases hj : j = i
  · subst hj
    rw [Process.setWin_same]
    exact List.mem_append_left _ hx
  · rw [s.setWin_other hj]
    exact hx

theorem append_serving (h : Serving s) (htype : (s.wins i).currentLockType ≠ none) {e : Entry}
    (he : e.id = s.next) (bytes : Int) :
    Serving (append { s with next := s.next + 1 } i e bytes) := by
  refine h.count_up.change (frame_setWin _ i _) h.flag ?_ (append_once h.once he bytes) ?_
  · rw [append, Process.setWin_same]
    exact fun hnone => absurd hnone htype
  · intro d hd hdrop id hid
    exact append_waits _ i e bytes (h.waits d hd hdrop id hid)

theorem serve_serving (h : Serving s) {e : Entry} {w : Win} (he : e ∈ (s.wins i).queue)
    (hfree : e.id ∉ s.drains.filterMap (·.entry)) (hw : w.queue = (s.wins i).queue)
    (htype : w.currentLockType ≠ none) : Serving (serve releaseLock s i e w) := by
  have hidle : Idle ((performing s i e w).wins i) := by
    intro hnone
    rw [performing_type] at hnone
    exact absurd hnone htype
  refine h.change (frame_serve frame_releaseLock s i e _) ?_ ?_ (once_serve_releaseLock h.once he hw) ?_
  · rw [serve_eq]
    split
    · exact (releaseLock_idle (s := performing s i e _) e.id h.flag hidle).2
    · exact h.flag
  · intro hnone
    rw [serve_eq, lockEntryFree_type] at hnone
    rw [serve_eq, lockEntryFree_queue]
    cases hpassing : e.pkt.passing with
    | true =>
      rw [hpassing, if_pos rfl] at hnone
      exact (releaseLock_idle (s := performing s i e _) e.id h.flag hidle).1 hnone
    | false =>
      rw [hpassing, if_neg Bool.false_ne_true] at hnone
      exact hidle hnone
  · intro d hd hdrop x hx
    refine waits_serve_releaseLock h.once he hw (h.waits d hd hdrop x hx) ?_
    rintro - rfl
    exact hfree (List.mem_filterMap.mpr ⟨d, hd, hx⟩)

theorem serve_setWin (release : Process → Nat → Nat → Process) (s : Process) (i : Nat) (e : Entry)
    (v w : Win) : serve release (s.setWin i v) i e w = serve release s i e w := by
  simp [serve, Process.setWin, Function.update_idem]

theorem Serving.mark (h : Serving s) {id : Nat} (hfree : id ∉ s.drains.filterMap (·.entry)) {w : Win}
    (hqueue : w.queue = (s.wins i).queue.map fun x =>
      if x.id = id then { x with allDataRecved := true } else x)
    (htype : w.currentLockType ≠ none) : Serving (s.setWin i w) := by
  have hids : SameIds s (s.setWin i w) := by
    refine ⟨?_, rfl, rfl, rfl, rfl⟩
    intro j
    by_cases hj : j = i
    · rw [hj, Process.setWin_same, hqueue]
      exact markedQueue_ids _ id
    · rw [s.setWin_other hj]
  refine h.change (frame_setWin s i w) h.flag ?_ (h.once.sameIds hids) ?_
  · rw [Process.setWin_same]
    exact fun hnone => absurd hnone htype
  · intro d hd hdrop x hx
    obtain ⟨y, hy, hyid, hdata⟩ := h.waits d hd hdrop x hx
    have hne : y.id ≠ id := by
      rw [hyid]
      rintro rfl
      exact hfree (List.mem_filterMap.mpr ⟨d, hd, hx⟩)
    refine ⟨y, ?_, hyid, hdata⟩
    by_cases hj : d.win = i
    · rw [hj, Process.setWin_same, hqueue]
      rw [hj] at hy
      exact List.mem_map.mpr ⟨y, hy, if_neg hne⟩
    · rw [s.setWin_other hj]
      exact hy

theorem recvComplete_serving (h : Serving s) {entry : Option Nat}
    (hfree : ∀ id ∈ entry, id ∉ s.drains.filterMap (·.entry))
    (hthere : ∀ id ∈ entry, id ∈ (s.wins i).queue.map (·.id)) :
    ∃ s', piggybackLockOpRecvComplete s i entry = .ok s' ∧ Serving s' := by
  cases entry with
  | none => exact ⟨s, rfl, h⟩
  | some id =>
    unfold piggybackLockOpRecvComplete
    cases hfind : (s.wins i).queue.find? (·.id = id) with
    | none =>
      obtain ⟨x, hx, hid⟩ := List.mem_map.mp (hthere id rfl)
      have := List.find?_eq_none.mp hfind x hx
      simp [hid] at this
    | some e =>
      have he : e.id = id := by simpa using List.find?_some hfind
      have hqueue := List.mem_of_find?_eq_some hfind
      simp only
      generalize hw : ({ s.wins i with queue := (s.wins i).queue.map fun x =>
        if x.id = id then { x with allDataRecved := true } else x } : Win) = w
      have hmarked : w.queue = (s.wins i).queue.map fun x =>
          if x.id = id then { x with allDataRecved := true } else x := by rw [← hw]
      cases hacq : tryAcquireWinLock w id e.pkt.lock with
      | none =>
        simp only [hfind, hacq]
        exact ⟨_, rfl, h.mark (hfree id rfl) hmarked (type_of_tryAcquire hacq)⟩
      | some w' =>
        simp only [hfind, hacq]
        obtain ⟨-, rfl⟩ := grants_of_tryAcquire hacq
        -- the window is overwritten when the entry is served, so that it may be locked before
        have hlocked := h.mark (w := acquire w id e.pkt.lock) (hfree id rfl) hmarked
          (Option.some_ne_none _)
        refine ⟨_, rfl, ?_⟩
        rw [serve_setWin, ← serve_setWin _ s i _ (acquire w id e.pkt.lock)]
        refine serve_serving hlocked ?_ (he ▸ hfree id rfl) ?_ (Option.some_ne_none _)
        · rw [Process.setWin_same]
          exact hmarked ▸ List.mem_map.mpr ⟨e, hqueue, if_pos he⟩
        · rw [Process.setWin_same]

theorem recvComplete_stale {id : Nat} (h : id ∉ (s.wins i).queue.map (·.id)) :
    piggybackLockOpRecvComplete s i (some id) = .error .useAfterFree := by
  have hfind : (s.wins i).queue.find? (·.id = id) = none := by
    rw [List.find?_eq_none]
    intro x hx
    have hne : x.id ≠ id := by
      rintro rfl
      exact h (List.mem_map_of_mem hx)
    simpa using hne
  simp only [piggybackLockOpRecvComplete, hfind]

theorem receiveData_serving (h : Serving s) {entry : Option Nat} {dropData arrived : Bool}
    (hfree : ∀ id ∈ entry, id ∉ s.drains.filterMap (·.entry)) (hold : ∀ id ∈ entry, id < s.next)
    (hthere : ∀ id ∈ entry, id ∈ (s.wins i).queue.map (·.id))
    (hwaits : dropData = false → ∀ id ∈ entry, Waits i id s) :
    ∃ s', receiveData s i entry dropData arrived = .ok s' ∧ Serving s' := by
  unfold receiveData
  split
  · exact recvComplete_serving h hfree hthere
  · refine ⟨_, rfl, h.flag, h.idle, h.once.same ⟨fun _ => rfl, rfl, rfl, rfl, rfl⟩, ?_, ?_, ?_⟩
    · intro d hd hdrop id hid
      rcases List.mem_append.mp hd with hd | hd
      · exact h.waits d hd hdrop id hid
      · rw [List.mem_singleton.mp hd] at hdrop hid ⊢
        exact hwaits hdrop id hid
    · rw [List.filterMap_append, List.nodup_append]
      refine ⟨h.drains, ?_, ?_⟩
      · cases entry <;> simp
      · intro a ha b hb heq
        obtain ⟨d, hd, hb⟩ := List.mem_filterMap.mp hb
        rw [List.mem_singleton.mp hd] at hb
        exact hfree b hb (heq ▸ ha)
    · intro id hid
      rw [List.filterMap_append] at hid
      rcases List.mem_append.mp hid with hid | hid
      · exact h.fresh id hid
      · obtain ⟨d, hd, hb⟩ := List.mem_filterMap.mp hid
        rw [List.mem_singleton.mp hd] at hb
        exact hold id hb

theorem enqueueLockOrigin_serving {limit : Int} {p : Packet} (h : Serving s)
    (htype : (s.wins i).currentLockType ≠ none) :
    ∃ s', enqueueLockOrigin limit { s with next := s.next + 1 } i s.next p = .ok s' ∧ Serving s' := by
  have hfree : ∀ id ∈ some s.next, id ∉ s.drains.filterMap (·.entry) := by
    intro id hid hmem
    have hlt := h.fresh id hmem
    have heq := Option.some.inj hid
    omega
  have hold : ∀ id ∈ some s.next, id < s.next + 1 := by
    intro id hid
    have heq := Option.some.inj hid
    omega
  unfold enqueueLockOrigin
  dsimp only
  split
  · split
    · exact ⟨_, rfl, h.count_up⟩
    · exact ⟨_, rfl, append_serving h htype rfl 0⟩
  · split
    · exact receiveData_serving h.count_up (by rintro _ ⟨⟩) (by rintro _ ⟨⟩)
        (by rintro _ ⟨⟩) (by rintro _ _ ⟨⟩)
    · split
      · refine receiveData_serving (append_serving h htype rfl _) hfree hold
          (append_there _ i s.next _ _ _ _) ?_
        intro _ id hid
        refine ⟨⟨s.next, p, false, true⟩, ?_, Option.some.inj hid, rfl⟩
        rw [append, Process.setWin_same]
        simp
      · exact receiveData_serving (append_serving h htype rfl _) hfree hold
          (append_there _ i s.next _ _ _ _) (by rintro ⟨⟩)

theorem arrive_serving {limit : Int} {p : Packet} (h : Serving s) :
    ∃ s', arrive limit s i p = .ok s' ∧ Serving s' := by
  unfold arrive
  dsimp only
  cases hacq : tryAcquireWinLock (s.wins i) s.next p.lock with
  | none => exact enqueueLockOrigin_serving h (type_of_tryAcquire hacq)
  | some w =>
    obtain ⟨-, rfl⟩ := grants_of_tryAcquire hacq
    have hlocked : Serving ({ s with next := s.next + 1 }.setWin i (acquire (s.wins i) s.next p.lock)) :=
      h.count_up.lock rfl (Option.some_ne_none _)
    refine ⟨_, rfl, ?_⟩
    split
    · exact releaseLock_serving hlocked _
    · exact hlocked

theorem acquireLocalLock_serving {requested : Lock} (h : Serving s) :
    Serving (acquireLocalLock s i requested) := by
  unfold acquireLocalLock
  dsimp only
  cases hacq : tryAcquireWinLock (s.wins i) s.next requested with
  | none =>
    simp only
    split
    · exact h.count_up
    · exact append_serving h (type_of_tryAcquire hacq) rfl 0
  | some w =>
    simp only
    obtain ⟨-, rfl⟩ := grants_of_tryAcquire hacq
    exact h.count_up.lock rfl (Option.some_ne_none _)

theorem Serving.eraseDrain (h : Serving s) {k : Nat} {d : Drain} (hd : s.drains[k]? = some d) :
    Serving { s with drains := s.drains.eraseIdx k } ∧
      ∀ id ∈ d.entry, id ∉ (s.drains.eraseIdx k).filterMap (·.entry) := by
  have hsub : (s.drains.eraseIdx k).Sublist s.drains := List.eraseIdx_sublist ..
  have hsub' : ((s.drains.eraseIdx k).filterMap (·.entry)).Sublist (s.drains.filterMap (·.entry)) :=
    hsub.filterMap _
  refine ⟨⟨h.flag, h.idle, h.once.same ⟨fun _ => rfl, rfl, rfl, rfl, rfl⟩,
    fun x hx => h.waits x (hsub.subset hx), h.drains.sublist hsub',
    fun id hid => h.fresh id (hsub'.subset hid)⟩, ?_⟩
  intro id hid
  obtain ⟨hk, hget⟩ := List.getElem?_eq_some_iff.mp hd
  have hsplit : s.drains = s.drains.take k ++ d :: s.drains.drop (k + 1) := by
    rw [← hget, List.getElem_cons_drop, List.take_append_drop]
  have hnodup := h.drains
  rw [hsplit, List.filterMap_append, List.filterMap_cons_some hid, List.nodup_middle,
    List.nodup_cons] at hnodup
  rw [List.eraseIdx_eq_take_drop_succ, List.filterMap_append]
  exact hnodup.1

end Handlers

def DrainedInTime (s : Process) : Event → Prop
  | .recvComplete k =>
    ∀ d ∈ s.drains[k]?, d.dropData = true → ∀ id ∈ d.entry, id ∈ (s.wins d.win).queue.map (·.id)
  | _ => True

theorem step_serving (limit : Int) {e : Event} (h : Serving s) (hpossible : Possible s e) :
    (DrainedInTime s e → ∃ s', step limit s e = .ok s' ∧ Serving s') ∧
      (¬ DrainedInTime s e → step limit s e = .error .useAfterFree) := by
  cases e with
  | arrive i p => exact ⟨fun _ => arrive_serving h, fun hnot => absurd trivial hnot⟩
  | acquireLocal i requested =>
    exact ⟨fun _ => ⟨_, rfl, acquireLocalLock_serving h⟩, fun hnot => absurd trivial hnot⟩
  | release i id =>
    refine ⟨fun _ => ⟨releaseLock s i id, ?_, releaseLock_serving h id⟩,
      fun hnot => absurd trivial hnot⟩
    simp only [step]
    exact require_bind_eq_ok.mpr ⟨hpossible, rfl⟩
  | recvComplete k =>
    have hsome : s.drains[k]? = some s.drains[k] := List.getElem?_eq_getElem hpossible
    obtain ⟨herased, hfree⟩ := h.eraseDrain hsome
    simp only [step, hsome]
    constructor
    · intro htime
      refine recvComplete_serving herased hfree ?_
      intro id hid
      cases hdrop : s.drains[k].dropData with
      | true => exact htime _ hsome hdrop id hid
      | false =>
        obtain ⟨x, hx, hxid, -⟩ := h.waits _ (List.getElem_mem hpossible) hdrop id hid
        exact List.mem_map.mpr ⟨x, hx, hxid⟩
    · intro hnot
      simp only [DrainedInTime, hsome, Option.mem_def, Option.some.injEq, forall_eq', not_forall] at hnot
      obtain ⟨-, id, hid, hgone⟩ := hnot
      rw [hid]
      exact recvComplete_stale hgone

/-- What the queues and their logs say between two calls of a handler. -/
structure Served (s : Process) : Prop where
  granted : s.granted.Nodup
  performed : s.performed.Nodup
  freed : s.freed.Nodup
  idle : ∀ i, (s.wins i).currentLockType = none →
    ∀ e ∈ (s.wins i).queue, e.allDataRecved = false

/-- No entry is used after it was freed exactly when dropped data always comes in before its entry is
served; then each entry is served at most once, and none is left behind. -/
theorem served_iff_drained (limit : Int) (pool : Nat) (os : List Event)
    (hrun : Along (step limit) Possible (Process.init pool) os) :
    (∃ s, run (step limit) (Process.init pool) os = .ok s ∧ Served s) ↔
      Along (step limit) DrainedInTime (Process.init pool) os := by
  have hok : ∀ s e, Serving s → Possible s e → ((∃ s', step limit s e = .ok s') ↔ DrainedInTime s e) := by
    intro s e h hpossible
    constructor
    · rintro ⟨s', hs'⟩
      by_contra hnot
      rw [(step_serving limit h hpossible).2 hnot] at hs'
      cases hs'
    · intro htime
      obtain ⟨s', hs', -⟩ := (step_serving limit h hpossible).1 htime
      exact ⟨s', hs'⟩
  have hkeep : ∀ s e s', Serving s → Possible s e → step limit s e = .ok s' → Serving s' := by
    intro s e s' h hpossible hs'
    obtain ⟨t, ht, hserving⟩ := (step_serving limit h hpossible).1 ((hok s e h hpossible).mp ⟨s', hs'⟩)
    exact Except.ok.inj (hs'.symm.trans ht) ▸ hserving
  rw [← run_ok_iff_along hok hkeep (init_serving pool) hrun]
  constructor
  · rintro ⟨s, hs, -⟩
    exact ⟨s, hs⟩
  · rintro ⟨s, hs⟩
    have hserving := run_invariant hkeep (init_serving pool) hrun hs
    exact ⟨s, hs, hserving.once.granted.nodup, hserving.once.performed.nodup,
      hserving.once.freed.nodup, hserving.idle⟩

instance (s : Process) (e : Event) : Decidable (DrainedInTime s e) :=
  match e with
  | .recvComplete k =>
    inferInstanceAs (Decidable (∀ d ∈ s.drains[k]?, d.dropData = true → ∀ id ∈ d.entry,
      id ∈ (s.wins d.win).queue.map (·.id)))
  | .arrive _ _ | .acquireLocal _ _ | .release _ _ => inferInstanceAs (Decidable True)

def latePacket (lock : Lock) (size : Nat) : Packet := ⟨lock, true, true, false, false, size, false, true, true⟩

def drainedFirst : List Event :=
  [.arrive 0 (lockPacket .exclusive), .arrive 0 (latePacket .exclusive 8),
    .arrive 0 (latePacket .exclusive 99), .recvComplete 1, .recvComplete 0, .release 0 0]

theorem served_drainedFirst :
    ∃ s, run (step 100) (Process.init 3) drainedFirst = .ok s ∧ s.freed = [1, 2] ∧ Served s := by
  obtain ⟨s, hrun, hserved⟩ :=
    (served_iff_drained 100 3 drainedFirst (by decide +kernel)).mpr (by decide +kernel)
  obtain ⟨s', hrun', hobs⟩ := ok_of_observed (f := fun s : Process => s.freed)
    (show (run (step 100) (Process.init 3) drainedFirst).toOption.map (fun s : Process => s.freed) =
      some [1, 2] by decide +kernel)
  have heq : s = s' := Except.ok.inj (hrun.symm.trans hrun')
  subst heq
  exact ⟨s, hrun, hobs, hserved⟩

theorem served_not_drained :
    Along (step 100) Possible (Process.init 3)
        [.arrive 0 (lockPacket .exclusive), .arrive 0 (latePacket .exclusive 100), .release 0 0,
          .recvComplete 0] ∧
      run (step 100) (Process.init 3)
        [.arrive 0 (lockPacket .exclusive), .arrive 0 (latePacket .exclusive 100), .release 0 0,
          .recvComplete 0] = .error .useAfterFree := by
  refine ⟨by decide +kernel, ?_⟩
  exact error_of_faultOf (by decide +kernel)

end FgMpi.Rma.LockQueue
