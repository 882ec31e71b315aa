import FgMpi.Rma.LockQueue

namespace FgMpi.Rma.LockQueue
open Machine.Checked Machine.Runs

@[simp] theorem Process.setWin_same (s : Process) (i : Nat) (w : Win) : (s.setWin i w).wins i = w :=
  Function.update_self ..

variable {i id : Nat}

theorem Process.setWin_other (s : Process) {j : Nat} (h : j ≠ i) (w : Win) :
    (s.setWin i w).wins j = s.wins j :=
  Function.update_of_ne h ..

@[simp] theorem Process.setWin_flag (s : Process) (i : Nat) (w : Win) :
    (s.setWin i w).enteredFlag = s.enteredFlag := rfl

@[simp] theorem Process.setWin_count (s : Process) (i : Nat) (w : Win) :
    (s.setWin i w).enteredCount = s.enteredCount := rfl

def holderOf (e : Entry) : Holder := ⟨e.id, e.pkt.lock⟩

structure Looks (s : Process) (i : Nat) (t : Option Lock) (c : Int) (hs : List Holder)
    (q : List Entry) (n : Nat) : Prop where
  type : (s.wins i).currentLockType = t
  cnt : (s.wins i).sharedLockRefCnt = c
  holders : (s.wins i).holders = hs
  queue : (s.wins i).queue = q
  flag : s.enteredFlag = true
  count : s.enteredCount = n

def Distinct (hs : List Holder) (q : List Entry) : Prop := (hs.map (·.id) ++ q.map (·.id)).Nodup

variable {hs : List Holder} {q pre rest : List Entry} {e : Entry}

theorem Distinct.holder_ne (h : Distinct hs q) (he : e ∈ q) : ∀ x ∈ hs, x.id ≠ e.id := by
  intro x hx heq
  rw [Distinct, List.nodup_append] at h
  exact h.2.2 x.id (List.mem_map_of_mem hx) e.id (List.mem_map_of_mem he) heq

theorem Distinct.filter_queue
    (h : Distinct hs (pre ++ e :: rest)) :
    (pre ++ e :: rest).filter (·.id ≠ e.id) = pre ++ rest := by
  rw [Distinct, List.nodup_append] at h
  have hq := h.2.1
  rw [List.map_append, List.map_cons, List.nodup_middle, List.nodup_cons] at hq
  have hne : ∀ x ∈ pre ++ rest, x.id ≠ e.id := by
    intro x hx heq
    refine hq.1 ?_
    rw [← List.map_append, ← heq]
    exact List.mem_map_of_mem hx
  rw [List.filter_append, List.filter_cons_of_neg (by simp)]
  congr 1
  · refine List.filter_eq_self.mpr ?_
    intro x hx
    simpa using hne x (List.mem_append_left _ hx)
  · refine List.filter_eq_self.mpr ?_
    intro x hx
    simpa using hne x (List.mem_append_right _ hx)

theorem Distinct.filter_holders
    (h : Distinct hs q) (he : e ∈ q) : (hs ++ [holderOf e]).filter (·.id ≠ e.id) = hs := by
  rw [List.filter_append, List.filter_cons_of_neg (by simp [holderOf]), List.filter_nil, List.append_nil]
  refine List.filter_eq_self.mpr ?_
  intro x hx
  simpa using h.holder_ne he x hx

theorem Distinct.hold (h : Distinct hs (pre ++ e :: rest)) : Distinct (hs ++ [holderOf e]) (pre ++ rest) := by
  rw [Distinct] at h ⊢
  refine (List.Perm.nodup_iff ?_).mp h
  simp only [List.map_append, List.map_cons, List.map_nil, holderOf, List.append_assoc,
    List.singleton_append]
  exact List.Perm.append_left _ List.perm_middle

theorem Distinct.drop (h : Distinct hs (pre ++ e :: rest)) : Distinct hs (pre ++ rest) := by
  rw [Distinct] at h ⊢
  refine h.sublist ?_
  refine List.Sublist.append_left ?_ _
  refine List.Sublist.map _ ?_
  exact List.Sublist.append_left (List.sublist_cons_self e rest) _

/-- The call of `MPIDI_CH3I_Release_lock` inside a walk. -/
abbrev reenter (s : Process) (i id : Nat) : Process := (releaseHead s i id).1

section Serve
variable {s : Process} {i : Nat} {hs : List Holder} {pre rest q : List Entry} {e : Entry} {n : Nat}
variable {t : Option Lock} {c : Int}

theorem Looks.lockEntryFree (h : Looks s i t c hs q n) (e : Entry) :
    Looks (lockEntryFree s i e) i t c hs q n := by
  unfold LockQueue.lockEntryFree
  constructor <;> simp [h.type, h.cnt, h.holders, h.queue, h.flag, h.count]

theorem Looks.reenter (h : Looks s i t c hs q n) (id : Nat) {c' : Int}
    (hc : (if t = some .shared then c - 1 else c) = c') :
    Looks (reenter s i id) i t c' (hs.filter (·.id ≠ id)) q (if c' = 0 then n + 1 else n) := by
  unfold LockQueue.reenter releaseHead
  simp only [h.type, h.cnt, hc, Process.setWin_flag, h.flag, if_true]
  split <;> constructor <;> simp [h.holders, h.queue, h.flag, h.count]

section
variable (h : Looks s i t c hs (pre ++ e :: rest) n) (hd : Distinct hs (pre ++ e :: rest))
include h hd

theorem Looks.grant :
    Looks { s.setWin i { acquire (s.wins i) e.id e.pkt.lock with
        queue := (acquire (s.wins i) e.id e.pkt.lock).queue.filter (·.id ≠ e.id) } with
        granted := s.granted ++ [e.id], performed := s.performed ++ [e.id] } i
      (some e.pkt.lock) (if e.pkt.lock = .shared then c + 1 else c) (hs ++ [holderOf e])
      (pre ++ rest) n := by
  constructor
  · simp [acquire]
  · simp [acquire, h.cnt]
  · simp [acquire, h.holders, holderOf]
  · simp only [acquire, h.queue, Process.setWin_same]
    exact hd.filter_queue
  · exact h.flag
  · exact h.count

theorem serve_hold
    (hpass : e.pkt.passing = false) :
    Looks (serve reenter s i e (acquire (s.wins i) e.id e.pkt.lock)) i (some e.pkt.lock)
      (if e.pkt.lock = .shared then c + 1 else c) (hs ++ [holderOf e]) (pre ++ rest) n := by
  unfold serve performOpInLockQueue
  simp only [hpass, Bool.false_eq_true, if_false]
  exact (h.grant hd).lockEntryFree e

theorem serve_pass (hpass : e.pkt.passing = true) :
    Looks (serve reenter s i e (acquire (s.wins i) e.id e.pkt.lock)) i (some e.pkt.lock) c hs
      (pre ++ rest) (if c = 0 then n + 1 else n) := by
  have hcnt : (if (some e.pkt.lock = some Lock.shared) then
      (if e.pkt.lock = .shared then c + 1 else c) - 1
      else if e.pkt.lock = .shared then c + 1 else c) = c := by
    cases e.pkt.lock <;> simp
  have hserved := ((h.grant hd).reenter e.id hcnt).lockEntryFree e
  rw [hd.filter_holders (by simp)] at hserved
  unfold serve performOpInLockQueue
  simp only [hpass, if_true]
  exact hserved

end

end Serve

def waitsShared (e : Entry) : Bool := e.allDataRecved && decide (e.pkt.lock = .shared)

section Walk
variable {s : Process} {i : Nat} {hs : List Holder} {pre es : List Entry} {n : Nat}

theorem walk_append (hpre : ∀ e ∈ pre, e.allDataRecved = false) : walk i s (pre ++ es) = walk i s es := by
  induction pre with
  | nil => rfl
  | cons e pre ih =>
    have he := hpre e List.mem_cons_self
    rw [List.cons_append, walk, if_neg (by rw [he]; decide)]
    exact ih fun x hx => hpre x (List.mem_cons_of_mem _ hx)

theorem tryAcquire_eq {w : Win} {t : Option Lock} (h : w.currentLockType = t) (id : Nat)
    (requested : Lock) : tryAcquireWinLock w id requested =
      if grants t requested then some (acquire w id requested) else none := by
  rw [tryAcquireWinLock, h]

theorem walk_held (h : Looks s i (some .shared) hs.length hs (pre ++ es) n)
    (hd : Distinct hs (pre ++ es)) (hne : hs ≠ []) (hshared : ∀ x ∈ hs, x.lock = .shared) :
    ∃ hs', Looks (walk i s es) i (some .shared) hs'.length hs'
        (pre ++ es.filter fun e => !waitsShared e) n ∧
      Distinct hs' (pre ++ es.filter fun e => !waitsShared e) ∧ hs' ≠ [] ∧
      ∀ x ∈ hs', x.lock = .shared := by
  induction es generalizing pre hs s with
  | nil => exact ⟨hs, h, hd, hne, hshared⟩
  | cons e es ih =>
    have hskip : waitsShared e = false → ∃ hs', Looks (walk i s es) i (some .shared) hs'.length hs'
        (pre ++ (e :: es).filter fun e => !waitsShared e) n ∧
        Distinct hs' (pre ++ (e :: es).filter fun e => !waitsShared e) ∧ hs' ≠ [] ∧
        ∀ x ∈ hs', x.lock = .shared := by
      intro hw
      have hassoc : ∀ l, pre ++ e :: l = (pre ++ [e]) ++ l := by simp
      rw [List.filter_cons_of_pos (by simp [hw]), hassoc]
      rw [hassoc] at h hd
      exact ih h hd hne hshared
    rw [walk]
    split
    · rename_i hready
      rw [tryAcquire_eq h.type]
      cases hlock : e.pkt.lock with
      | exclusive => exact hskip (by simp [waitsShared, hlock])
      | shared =>
        simp only [grants, if_true, reduceCtorEq, if_false]
        have hw : waitsShared e = true := by simp [waitsShared, hready, hlock]
        rw [List.filter_cons_of_neg (by simp [hw])]
        cases hpass : e.pkt.passing with
        | false =>
          have hserved := serve_hold h hd hpass
          rw [hlock] at hserved
          simp only [if_true] at hserved
          have hcount : (hs.length : Int) + 1 = (hs ++ [holderOf e]).length := by simp
          rw [hcount] at hserved
          refine ih hserved hd.hold (by simp) ?_
          · intro x hx
            rcases List.mem_append.mp hx with hx | hx
            · exact hshared x hx
            · rw [List.mem_singleton.mp hx]
              exact hlock
        | true =>
          have hserved := serve_pass h hd hpass
          have hlen : (hs.length : Int) ≠ 0 := by
            simpa using hne
          rw [hlock, if_neg hlen] at hserved
          exact ih hserved hd.drop hne hshared
    · rename_i hready
      exact hskip (by simp [waitsShared, hready])

theorem walk_passing (h : Looks s i (some .shared) 0 [] (pre ++ es) n)
    (hd : Distinct [] (pre ++ es)) (hpass : ∀ e ∈ es, waitsShared e = true → e.pkt.passing = true) :
    Looks (walk i s es) i (some .shared) 0 [] (pre ++ es.filter fun e => !waitsShared e)
        (n + (es.filter waitsShared).length) ∧
      Distinct [] (pre ++ es.filter fun e => !waitsShared e) := by
  induction es generalizing pre s n with
  | nil => exact ⟨h, hd⟩
  | cons e es ih =>
    have hrest : ∀ x ∈ es, waitsShared x = true → x.pkt.passing = true :=
      fun x hx => hpass x (List.mem_cons_of_mem _ hx)
    have hskip : waitsShared e = false →
        Looks (walk i s es) i (some .shared) 0 [] (pre ++ (e :: es).filter fun e => !waitsShared e)
          (n + ((e :: es).filter waitsShared).length) ∧
        Distinct [] (pre ++ (e :: es).filter fun e => !waitsShared e) := by
      intro hw
      have hassoc : ∀ l, pre ++ e :: l = (pre ++ [e]) ++ l := by simp
      rw [List.filter_cons_of_pos (by simp [hw]), List.filter_cons_of_neg (by simp [hw]), hassoc]
      rw [hassoc] at h hd
      exact ih h hd hrest
    rw [walk]
    split
    · rename_i hready
      rw [tryAcquire_eq h.type]
      cases hlock : e.pkt.lock with
      | exclusive => exact hskip (by simp [waitsShared, hlock])
      | shared =>
        simp only [grants, if_true, reduceCtorEq, if_false]
        have hw : waitsShared e = true := by simp [waitsShared, hready, hlock]
        have hserved := serve_pass h hd (hpass e List.mem_cons_self hw)
        rw [hlock, if_pos rfl] at hserved
        rw [List.filter_cons_of_neg (by simp [hw]), List.filter_cons_of_pos hw, List.length_cons,
          Nat.add_comm _ 1, ← Nat.add_assoc]
        exact ih hserved hd.drop hrest
    · rename_i hready
      exact hskip (by simp [waitsShared, hready])

theorem walk_none {e : Entry} (h : Looks s i none 0 [] (pre ++ e :: es) n)
    (hpre : ∀ x ∈ pre, x.allDataRecved = false) (hready : e.allDataRecved = true) :
    walk i s (pre ++ e :: es) =
      if e.pkt.lock = .exclusive then serve reenter s i e (acquire (s.wins i) e.id e.pkt.lock)
      else walk i (serve reenter s i e (acquire (s.wins i) e.id e.pkt.lock)) es := by
  rw [walk_append hpre, walk, if_pos hready, tryAcquire_eq h.type]
  cases e.pkt.lock <;> rfl

end Walk

def Consistent (t : Option Lock) (c : Int) (hs : List Holder) : Prop :=
  match t with
  | none => hs = [] ∧ c = 0
  | some .shared => hs ≠ [] ∧ (∀ x ∈ hs, x.lock = .shared) ∧ c = hs.length
  | some .exclusive => (∃ x, hs = [x] ∧ x.lock = .exclusive) ∧ c = 0

structure Settled (t : Option Lock) (c : Int) (hs : List Holder) (q : List Entry) : Prop where
  consistent : Consistent t c hs
  distinct : Distinct hs q
  idle : t = none → ∀ e ∈ q, e.allDataRecved = false

def Ends (s : Process) (i : Nat) : Prop := ∃ t c hs q n, Looks s i t c hs q n ∧ Settled t c hs q

def ready (q : List Entry) : List Entry := q.filter (·.allDataRecved)

/-- The entries that are ready, in the order of the queue: if the first one is shared and gives the
lock back at once, no other shared one keeps it, and if there is another shared one, then no exclusive
one keeps it. -/
def Servable : List Entry → Prop
  | [] => True
  | e :: es =>
    match e.pkt.lock with
    | .exclusive => e.pkt.passing = true → Servable es
    | .shared => e.pkt.passing = true → (∀ x ∈ es, x.pkt.lock = .shared → x.pkt.passing = true) ∧
      ((∀ x ∈ es, x.pkt.lock = .exclusive) ∨
        ∀ x ∈ es, x.pkt.lock = .exclusive → x.pkt.passing = true)

theorem servable_of_exclusive {es : List Entry} (h : ∀ e ∈ es, e.pkt.lock = .exclusive) : Servable es := by
  induction es with
  | nil => trivial
  | cons e es ih =>
    rw [Servable, h e List.mem_cons_self]
    intro _
    exact ih fun x hx => h x (List.mem_cons_of_mem _ hx)

theorem mem_ready : e ∈ ready q ↔ e ∈ q ∧ e.allDataRecved = true := by
  simp [ready]

theorem first_ready (q : List Entry) :
    (∀ e ∈ q, e.allDataRecved = false) ∨
      ∃ pre e es, q = pre ++ e :: es ∧ (∀ x ∈ pre, x.allDataRecved = false) ∧
        e.allDataRecved = true := by
  induction q with
  | nil => exact Or.inl (fun _ h => nomatch h)
  | cons x q ih =>
    cases hx : x.allDataRecved with
    | true => exact Or.inr ⟨[], x, q, rfl, fun _ h => (nomatch h), hx⟩
    | false =>
      rcases ih with hall | ⟨pre, e, es, rfl, hpre, he⟩
      · refine Or.inl ?_
        intro e he
        rcases List.mem_cons.mp he with rfl | he
        · exact hx
        · exact hall e he
      · refine Or.inr ⟨x :: pre, e, es, rfl, ?_, he⟩
        intro y hy
        rcases List.mem_cons.mp hy with rfl | hy
        · exact hx
        · exact hpre y hy

theorem ready_append {es : List Entry} (hpre : ∀ x ∈ pre, x.allDataRecved = false) :
    ready (pre ++ es) = ready es := by
  rw [ready, List.filter_append, List.filter_eq_nil_iff.mpr, List.nil_append]
  · rfl
  · intro x hx
    simp [hpre x hx]

theorem ready_cons (he : e.allDataRecved = true) (es : List Entry) :
    ready (e :: es) = e :: ready es := List.filter_cons_of_pos he

variable {s : Process} {t : Option Lock}

theorem Looks.clearLock {c : Int} {n : Nat} (h : Looks s i t c hs q n) :
    Looks (clearLock s i) i none c hs q n := by
  unfold LockQueue.clearLock
  constructor <;> simp [h.cnt, h.holders, h.queue, h.flag, h.count]

section Passes
variable {s : Process} {i : Nat} {t : Option Lock} {q : List Entry} {n fuel temp d : Nat}

theorem passes_drain (h : Looks s i t 0 [] q n) (hd : Distinct [] q)
    (hall : ∀ e ∈ q, e.allDataRecved = true → e.pkt.lock = .exclusive ∧ e.pkt.passing = true)
    (hleft : (if temp ≠ n then temp + 1 else temp) + d = n) (hfuel : d + q.length < fuel) :
    Ends (passes i fuel temp s) i := by
  induction fuel generalizing s t q n temp d with
  | zero => omega
  | succ fuel ih =>
    have hclear := h.clearLock
    simp only [passes, h.count, hclear.queue]
    generalize (if temp ≠ n then temp + 1 else temp) = temp1 at hleft ⊢
    rcases first_ready q with hidle | ⟨pre, e, es, rfl, hpre, he⟩
    · have hwalk : walk i (clearLock s i) q = clearLock s i := by
        have := @walk_append (clearLock s i) i q [] hidle
        rwa [List.append_nil] at this
      rw [hwalk, hclear.count]
      split
      · rename_i hne
        exact ih (d := d - 1) hclear hd hall (by rw [if_pos hne]; omega) (by omega)
      · exact ⟨none, 0, [], q, n, hclear, ⟨rfl, rfl⟩, hd, fun _ => hidle⟩
    · obtain ⟨hlock, hpass⟩ := hall e (by simp) he
      have hserved := serve_pass hclear hd hpass
      rw [hlock, if_pos rfl] at hserved
      rw [walk_none hclear hpre he, if_pos hlock]
      rw [hlock, hserved.count]
      have hne : temp1 ≠ n + 1 := by omega
      rw [if_pos hne]
      refine ih (d := d) hserved hd.drop ?_ (by rw [if_pos hne]; omega) ?_
      · intro x hx
        refine hall x ?_
        simp only [List.mem_append, List.mem_cons] at hx ⊢
        tauto
      · simp only [List.length_append, List.length_cons] at hfuel ⊢
        omega

theorem passes_servable (h : Looks s i t 0 [] q n) (hd : Distinct [] q)
    (hserv : Servable (ready q)) (hleft : (if temp ≠ n then temp + 1 else temp) = n)
    (hfuel : q.length < fuel) : Ends (passes i fuel temp s) i := by
  induction fuel generalizing s t q n temp with
  | zero => omega
  | succ fuel ih =>
    have hclear := h.clearLock
    simp only [passes, h.count, hclear.queue, hleft]
    rcases first_ready q with hidle | ⟨pre, e, es, rfl, hpre, he⟩
    · have hwalk : walk i (clearLock s i) q = clearLock s i := by
        have := @walk_append (clearLock s i) i q [] hidle
        rwa [List.append_nil] at this
      rw [hwalk, hclear.count, if_neg (by simp)]
      exact ⟨none, 0, [], q, n, hclear, ⟨rfl, rfl⟩, hd, fun _ => hidle⟩
    · rw [ready_append hpre, ready_cons he, Servable] at hserv
      simp only [List.length_append, List.length_cons] at hfuel
      rw [walk_none hclear hpre he]
      cases hlock : e.pkt.lock with
      | exclusive =>
        rw [hlock] at hserv
        rw [if_pos rfl]
        cases hpass : e.pkt.passing with
        | false =>
          have hserved := serve_hold hclear hd hpass
          rw [hlock] at hserved
          rw [hserved.count, if_neg (by simp)]
          exact ⟨_, _, _, _, n, hserved, ⟨⟨holderOf e, rfl, hlock⟩, rfl⟩, hd.hold,
            fun h => nomatch h⟩
        | true =>
          have hserved := serve_pass hclear hd hpass
          rw [hlock, if_pos rfl] at hserved
          rw [hserved.count, if_pos (by omega)]
          refine ih hserved hd.drop ?_ (by rw [if_pos (by omega)]) ?_
          · rw [ready_append hpre]
            exact hserv hpass
          · rw [List.length_append]
            omega
      | shared =>
        rw [hlock] at hserv
        simp only [reduceCtorEq, if_false]
        cases hpass : e.pkt.passing with
        | false =>
          have hserved := serve_hold hclear hd hpass
          rw [hlock] at hserved
          obtain ⟨hs', hlooks, hdist, hne, hshared⟩ :=
            walk_held hserved hd.hold (by simp) (by simp [holderOf, hlock])
          rw [hlooks.count, if_neg (by simp)]
          exact ⟨_, _, _, _, n, hlooks, ⟨hne, hshared, rfl⟩, hdist, fun h => nomatch h⟩
        | true =>
          obtain ⟨hpassing, hexclusive⟩ := hserv hpass
          have hserved := serve_pass hclear hd hpass
          rw [hlock, if_pos rfl] at hserved
          have hshared : ∀ x ∈ es, waitsShared x = true → x.pkt.passing = true := by
            intro x hx hw
            simp only [waitsShared, Bool.and_eq_true, decide_eq_true_eq] at hw
            exact hpassing x (mem_ready.mpr ⟨hx, hw.1⟩) hw.2
          obtain ⟨hlooks, hdist⟩ := walk_passing hserved hd.drop hshared
          have hlength : (es.filter waitsShared).length +
              (es.filter fun e => !waitsShared e).length = es.length :=
            (List.length_eq_length_filter_add waitsShared).symm
          have hkept : ∀ x ∈ ready (pre ++ es.filter fun e => !waitsShared e),
              x ∈ ready es ∧ x.pkt.lock = .exclusive := by
            intro x hx
            rw [ready_append hpre, mem_ready, List.mem_filter] at hx
            obtain ⟨⟨hx, hw⟩, hr⟩ := hx
            refine ⟨mem_ready.mpr ⟨hx, hr⟩, ?_⟩
            simp only [waitsShared, hr, Bool.true_and, Bool.not_eq_true', decide_eq_false_iff_not]
              at hw
            cases hl : x.pkt.lock with
            | shared => exact absurd hl hw
            | exclusive => rfl
          rw [hlooks.count, if_pos (by omega)]
          rcases hexclusive with hnone | hall
          · -- no other shared entry is ready: the loop is entered once more
            have hzero : (es.filter waitsShared).length = 0 := by
              rw [List.length_eq_zero_iff, List.filter_eq_nil_iff]
              intro x hx hw
              simp only [waitsShared, Bool.and_eq_true, decide_eq_true_eq] at hw
              have := hnone x (mem_ready.mpr ⟨hx, hw.1⟩)
              rw [this] at hw
              exact nomatch hw.2
            refine ih hlooks hdist (servable_of_exclusive fun x hx => (hkept x hx).2) ?_ ?_
            · rw [hzero, if_pos (by omega)]
            · rw [List.length_append]
              omega
          · refine passes_drain (d := (es.filter waitsShared).length) hlooks hdist ?_ ?_ ?_
            · intro x hx hr
              obtain ⟨hmem, hl⟩ := hkept x (mem_ready.mpr ⟨hx, hr⟩)
              exact ⟨hl, hall x hmem hl⟩
            · rw [if_pos (by omega)]
            · rw [List.length_append]
              omega

end Passes

structure Frame (i : Nat) (s s' : Process) : Prop where
  wins : ∀ j, j ≠ i → s'.wins j = s.wins j
  drains : s'.drains = s.drains
  next : s'.next = s.next

theorem Frame.refl (i : Nat) (s : Process) : Frame i s s := ⟨fun _ _ => rfl, rfl, rfl⟩

theorem Frame.trans {t u : Process} (h : Frame i s t) (h' : Frame i t u) : Frame i s u :=
  ⟨fun j hj => (h'.wins j hj).trans (h.wins j hj), h'.drains.trans h.drains, h'.next.trans h.next⟩

theorem frame_setWin (s : Process) (i : Nat) (w : Win) : Frame i s (s.setWin i w) :=
  ⟨fun _ hj => s.setWin_other hj w, rfl, rfl⟩

theorem frame_releaseHead (s : Process) (i id : Nat) : Frame i s (releaseHead s i id).1 := by
  unfold releaseHead
  dsimp only
  split_ifs <;> exact ⟨fun _ hj => s.setWin_other hj _, rfl, rfl⟩

theorem frame_serve {release : Process → Nat → Nat → Process}
    (hrelease : ∀ s i id, Frame i s (release s i id)) (s : Process) (i : Nat) (e : Entry) (w : Win) :
    Frame i s (serve release s i e w) := by
  have hperform : ∀ t : Process, Frame i t (performOpInLockQueue release t i e) := by
    intro t
    unfold performOpInLockQueue
    dsimp only
    split
    · refine Frame.trans ?_ (hrelease _ i e.id)
      exact ⟨fun _ _ => rfl, rfl, rfl⟩
    · exact ⟨fun _ _ => rfl, rfl, rfl⟩
  have hfree : ∀ t : Process, Frame i t (lockEntryFree t i e) :=
    fun t => ⟨fun _ hj => t.setWin_other hj _, rfl, rfl⟩
  unfold serve
  refine Frame.trans ?_ (hfree _)
  refine Frame.trans ?_ (hperform _)
  exact ⟨fun _ hj => s.setWin_other hj _, rfl, rfl⟩

theorem frame_walk (s : Process) (i : Nat) (es : List Entry) : Frame i s (walk i s es) := by
  induction es generalizing s with
  | nil => exact Frame.refl i s
  | cons e es ih =>
    rw [walk]
    split
    · split
      · rename_i w _
        have hserve := frame_serve (fun s i id => frame_releaseHead s i id) s i e w
        dsimp only
        split
        · exact hserve
        · exact hserve.trans (ih _)
      · exact ih s
    · exact ih s

theorem frame_passes (i fuel temp : Nat) (s : Process) : Frame i s (passes i fuel temp s) := by
  induction fuel generalizing temp s with
  | zero => exact Frame.refl i s
  | succ fuel ih =>
    rw [passes]
    have hwalk := (frame_setWin s i { s.wins i with currentLockType := none }).trans
      (frame_walk (clearLock s i) i ((clearLock s i).wins i).queue)
    split_ifs
    · exact hwalk.trans (ih _ _)
    · exact hwalk
    · exact hwalk.trans (ih _ _)
    · exact hwalk

theorem frame_releaseLock (s : Process) (i id : Nat) : Frame i s (releaseLock s i id) := by
  unfold releaseLock
  have hhead := frame_releaseHead s i id
  split
  · rename_i s' heq
    rw [heq] at hhead
    exact hhead
  · rename_i s' heq
    rw [heq] at hhead
    have := hhead.trans (frame_passes i ((s'.wins i).queue.length + 1) s'.enteredCount s')
    exact ⟨this.wins, this.drains, this.next⟩

def Marked (P : Nat → Prop) (s : Process) (i : Nat) : Prop :=
  (∀ x ∈ (s.wins i).holders, P x.id) ∧ ∀ e ∈ (s.wins i).queue, P e.id

section Marks
variable {P : Nat → Prop} {s : Process} {i : Nat}

theorem Marked.releaseHead (h : Marked P s i) (id : Nat) : Marked P (releaseHead s i id).1 i := by
  have hfilter : ∀ x ∈ (s.wins i).holders.filter (·.id ≠ id), P x.id :=
    fun x hx => h.1 x (List.mem_of_mem_filter hx)
  unfold LockQueue.releaseHead
  dsimp only
  split_ifs <;> exact ⟨by simpa [Process.setWin] using hfilter, by simpa [Process.setWin] using h.2⟩

theorem Marked.acquire {w : Win} (hh : ∀ x ∈ w.holders, P x.id) {id : Nat} (hid : P id)
    (requested : Lock) : ∀ x ∈ (acquire w id requested).holders, P x.id := by
  intro x hx
  rcases List.mem_append.mp hx with hx | hx
  · exact hh x hx
  · rw [List.mem_singleton.mp hx]
    exact hid

theorem Marked.serve {release : Process → Nat → Nat → Process}
    (hrelease : ∀ s id, Marked P s i → Marked P (release s i id) i) {w : Win} {e : Entry}
    (hh : ∀ x ∈ w.holders, P x.id) (hq : ∀ x ∈ w.queue, P x.id) :
    Marked P (serve release s i e w) i := by
  have hbase : Marked P { s.setWin i { w with queue := w.queue.filter (·.id ≠ e.id) } with
      granted := s.granted ++ [e.id], performed := s.performed ++ [e.id] } i := by
    refine ⟨?_, ?_⟩
    · simpa using hh
    · intro x hx
      rw [Process.setWin_same] at hx
      exact hq x (List.mem_of_mem_filter hx)
  have hfree : ∀ t, Marked P t i → Marked P (lockEntryFree t i e) i := by
    intro t ht
    exact ⟨by simpa [lockEntryFree] using ht.1, by simpa [lockEntryFree] using ht.2⟩
  unfold LockQueue.serve performOpInLockQueue
  dsimp only
  split
  · exact hfree _ (hrelease _ _ hbase)
  · exact hfree _ hbase

theorem Marked.walk (h : Marked P s i) {es : List Entry} (hes : ∀ e ∈ es, P e.id) :
    Marked P (walk i s es) i := by
  induction es generalizing s with
  | nil => exact h
  | cons e es ih =>
    have hrest : ∀ x ∈ es, P x.id := fun x hx => hes x (List.mem_cons_of_mem _ hx)
    rw [LockQueue.walk, tryAcquire_eq rfl]
    split
    · split
      · rename_i w hw
        have heq : LockQueue.acquire (s.wins i) e.id e.pkt.lock = w := by
          split at hw
          · exact Option.some.inj hw
          · cases hw
        have hserve := @Marked.serve P s i reenter (fun s id hs => hs.releaseHead id) w e
          (heq ▸ Marked.acquire h.1 (hes e List.mem_cons_self) e.pkt.lock) (heq ▸ h.2)
        dsimp only
        split
        · exact hserve
        · exact ih hserve hrest
      · exact ih h hrest
    · exact ih h hrest

theorem Marked.passes (h : Marked P s i) (fuel temp : Nat) : Marked P (passes i fuel temp s) i := by
  induction fuel generalizing temp s with
  | zero => exact h
  | succ fuel ih =>
    have hclear : Marked P (LockQueue.clearLock s i) i :=
      ⟨by simpa [LockQueue.clearLock] using h.1, by simpa [LockQueue.clearLock] using h.2⟩
    have hwalk := hclear.walk hclear.2
    rw [LockQueue.passes]
    split_ifs
    · exact ih hwalk _
    · exact hwalk
    · exact ih hwalk _
    · exact hwalk

theorem Marked.releaseLock (h : Marked P s i) (id : Nat) : Marked P (releaseLock s i id) i := by
  have hhead := h.releaseHead id
  unfold LockQueue.releaseLock
  split
  · rename_i s' heq
    rw [heq] at hhead
    exact hhead
  · rename_i s' heq
    rw [heq] at hhead
    exact hhead.passes _ _

end Marks

def Quiet (w : Win) : Prop := Settled w.currentLockType w.sharedLockRefCnt w.holders w.queue

theorem filter_holders_length (hnodup : (hs.map (·.id)).Nodup)
    (hid : id ∈ hs.map (·.id)) : (hs.filter (·.id ≠ id)).length + 1 = hs.length := by
  induction hs with
  | nil => cases hid
  | cons x hs ih =>
    rw [List.map_cons, List.nodup_cons] at hnodup
    by_cases hx : x.id = id
    · rw [List.filter_cons_of_neg (by simp [hx]), List.length_cons]
      congr 2
      refine List.filter_eq_self.mpr ?_
      intro y hy
      have : y.id ≠ id := fun heq => hnodup.1 (by rw [hx, ← heq]; exact List.mem_map_of_mem hy)
      simpa using this
    · rw [List.filter_cons_of_pos (by simp [hx]), List.length_cons, List.length_cons]
      have hmem : id ∈ hs.map (·.id) := by
        rcases List.mem_cons.mp hid with heq | hmem
        · exact absurd heq.symm hx
        · exact hmem
      rw [ih hnodup.2 hmem]

theorem Distinct.release (h : Distinct hs q) (id : Nat) : Distinct (hs.filter (·.id ≠ id)) q := by
  rw [Distinct] at h ⊢
  exact h.sublist (List.Sublist.append_right (List.filter_sublist.map _) _)

theorem releaseHead_cases (hflag : s.enteredFlag = false)
    (hquiet : Quiet (s.wins i)) (hid : id ∈ (s.wins i).holders.map (·.id)) :
    (s.wins i).holders.filter (·.id ≠ id) = [] ∧ (releaseHead s i id).2 = true ∧
      Looks (releaseHead s i id).1 i (s.wins i).currentLockType 0 [] (s.wins i).queue
        s.enteredCount ∨
    (releaseHead s i id).2 = false ∧ (releaseHead s i id).1.enteredFlag = false ∧
      (releaseHead s i id).1.enteredCount = s.enteredCount ∧
      Quiet ((releaseHead s i id).1.wins i) := by
  obtain ⟨hcons, hdist, -⟩ := hquiet
  have hnodup : ((s.wins i).holders.map (·.id)).Nodup := by
    rw [Distinct, List.nodup_append] at hdist
    exact hdist.1
  have hlength := filter_holders_length hnodup hid
  have hdist' := hdist.release id
  -- the counter is what is left of the shared holders
  obtain ⟨c, hc, hrest⟩ : ∃ c : Int, (if (s.wins i).currentLockType = some .shared then
      (s.wins i).sharedLockRefCnt - 1 else (s.wins i).sharedLockRefCnt) = c ∧
      (c = 0 ∧ (s.wins i).holders.filter (·.id ≠ id) = [] ∨ c ≠ 0 ∧
        Consistent (s.wins i).currentLockType c ((s.wins i).holders.filter (·.id ≠ id))) := by
    refine ⟨_, rfl, ?_⟩
    cases htype : (s.wins i).currentLockType with
    | none =>
      rw [htype] at hcons
      rw [hcons.1] at hid
      cases hid
    | some lock =>
      rw [htype] at hcons
      cases lock with
      | exclusive =>
        obtain ⟨⟨x, hx, _⟩, h0⟩ := hcons
        refine Or.inl ⟨by simpa using h0, ?_⟩
        rw [hx, List.length_singleton] at hlength
        rw [hx]
        exact List.length_eq_zero_iff.mp (by omega)
      | shared =>
        obtain ⟨_, hshared, h0⟩ := hcons
        simp only [if_true]
        by_cases hzero : (s.wins i).sharedLockRefCnt - 1 = 0
        · exact Or.inl ⟨hzero, List.length_eq_zero_iff.mp (by omega)⟩
        · refine Or.inr ⟨hzero, ?_, ?_, by omega⟩
          · intro hnil
            rw [hnil, List.length_nil] at hlength
            omega
          · exact fun x hx => hshared x (List.mem_of_mem_filter hx)
  unfold releaseHead
  simp only [hc, Process.setWin_flag, hflag, Bool.false_eq_true, if_false]
  rcases hrest with ⟨rfl, hnil⟩ | ⟨hne, hcons'⟩
  · refine Or.inl ⟨hnil, rfl, ?_⟩
    constructor
    · simp
    · simp
    · rw [if_pos rfl, Process.setWin_same]
      exact hnil
    · simp
    · simp
    · simp
  · simp only [hne, if_false]
    refine Or.inr ⟨trivial, hflag, rfl, ?_⟩
    rw [Process.setWin_same]
    refine ⟨hcons', hdist', ?_⟩
    intro hnone
    rw [show (s.wins i).currentLockType = none from hnone] at hcons'
    exact absurd hcons'.2 hne

theorem releaseLock_quiet (hflag : s.enteredFlag = false)
    (hcount : s.enteredCount = 0) (hquiet : Quiet (s.wins i)) (hid : id ∈ (s.wins i).holders.map (·.id))
    (hserv : (s.wins i).holders.filter (·.id ≠ id) = [] → Servable (ready (s.wins i).queue)) :
    Quiet ((releaseLock s i id).wins i) ∧ (releaseLock s i id).enteredFlag = false ∧
      (releaseLock s i id).enteredCount = 0 := by
  have hcases := releaseHead_cases hflag hquiet hid
  rw [hcount] at hcases
  unfold releaseLock
  rcases hhead : releaseHead s i id with ⟨s', walks⟩
  rw [hhead] at hcases
  rcases hcases with ⟨hnil, hwalks, hlooks⟩ | ⟨hwalks, hflag', hcount', hquiet'⟩
  · simp only at hwalks hlooks
    subst hwalks
    have hdist := hquiet.distinct.release id
    rw [hnil] at hdist
    have hpasses : Ends (passes i ((s.wins i).queue.length + 1) 0 s') i :=
      passes_servable hlooks hdist (hserv hnil) (by simp) (Nat.lt_succ_self _)
    obtain ⟨t, c, hs, q, n, hends, hsettled⟩ := hpasses
    simp only [hlooks.queue, hlooks.count]
    refine ⟨?_, trivial, trivial⟩
    unfold Quiet
    rw [hends.type, hends.cnt, hends.holders, hends.queue]
    exact hsettled
  · simp only at hwalks hflag' hcount' hquiet'
    subst hwalks
    exact ⟨hquiet', hflag', hcount'⟩

variable {lock : Lock}

theorem Consistent.grant {c : Int} (h : Consistent t c hs) (hg : grants t lock = true) (id : Nat) :
    Consistent (some lock) (if lock = .shared then c + 1 else c) (hs ++ [⟨id, lock⟩]) := by
  cases lock with
  | shared =>
    simp only [if_true]
    refine ⟨by simp, ?_, ?_⟩
    · intro x hx
      rcases List.mem_append.mp hx with hx | hx
      · match t with
        | none =>
          rw [h.1] at hx
          cases hx
        | some .shared => exact h.2.1 x hx
        | some .exclusive => cases hg
      · rw [List.mem_singleton.mp hx]
    · rw [List.length_append, List.length_singleton]
      match t with
      | none =>
        rw [h.1, h.2]
        rfl
      | some .shared =>
        rw [h.2.2]
        rfl
      | some .exclusive => cases hg
  | exclusive =>
    match t with
    | none =>
      rw [h.1, h.2]
      exact ⟨⟨_, rfl, rfl⟩, rfl⟩
    | some .shared => cases hg
    | some .exclusive => cases hg

theorem Consistent.none_of_nil {c : Int} (h : Consistent t c hs) (hnil : hs = []) : t = none := by
  match t with
  | none => rfl
  | some .shared => exact absurd hnil h.1
  | some .exclusive =>
    obtain ⟨⟨x, hx, _⟩, _⟩ := h
    rw [hnil] at hx
    cases hx

section Grant
variable {s : Process} {i id : Nat} {w : Win} {lock : Lock} {q : List Entry}

section
variable (hcons : Consistent w.currentLockType w.sharedLockRefCnt w.holders)
include hcons

theorem grant_quiet
    (hg : grants w.currentLockType lock = true) (hd : Distinct (w.holders ++ [⟨id, lock⟩]) q) :
    Quiet { acquire w id lock with queue := q } :=
  ⟨hcons.grant hg id, hd, fun h => nomatch h⟩

theorem grant_release_quiet
    (hg : grants w.currentLockType lock = true) (hd : Distinct (w.holders ++ [⟨id, lock⟩]) q)
    (hidle : w.currentLockType = none → ready q = []) (hflag : s.enteredFlag = false)
    (hcount : s.enteredCount = 0) (hw : s.wins i = { acquire w id lock with queue := q }) :
    Quiet ((releaseLock s i id).wins i) ∧ (releaseLock s i id).enteredFlag = false ∧
      (releaseLock s i id).enteredCount = 0 := by
  have hquiet : Quiet (s.wins i) := by
    rw [hw]
    exact grant_quiet hcons hg hd
  have hholders : (s.wins i).holders = w.holders ++ [⟨id, lock⟩] := by
    rw [hw]
    rfl
  have hqueue : (s.wins i).queue = q := by rw [hw]
  refine releaseLock_quiet hflag hcount hquiet ?_ ?_
  · rw [hholders]
    simp
  · intro hnil
    have hempty : w.holders = [] := by
      rw [hholders, List.filter_append, List.append_eq_nil_iff] at hnil
      rw [Distinct, List.map_append, List.append_assoc, List.nodup_append] at hd
      rw [← hnil.1, eq_comm, List.filter_eq_self]
      intro x hx
      simpa using hd.2.2 x.id (List.mem_map_of_mem hx) id (by simp)
    rw [hqueue, hidle (hcons.none_of_nil hempty)]
    trivial

theorem serve_quiet {e : Entry} (hg : grants w.currentLockType e.pkt.lock = true)
    (hd : Distinct (w.holders ++ [holderOf e]) (w.queue.filter (·.id ≠ e.id)))
    (hidle : w.currentLockType = none → ready (w.queue.filter (·.id ≠ e.id)) = [])
    (hflag : s.enteredFlag = false) (hcount : s.enteredCount = 0) :
    Quiet ((serve releaseLock s i e (acquire w e.id e.pkt.lock)).wins i) ∧
      (serve releaseLock s i e (acquire w e.id e.pkt.lock)).enteredFlag = false ∧
      (serve releaseLock s i e (acquire w e.id e.pkt.lock)).enteredCount = 0 := by
  have hfree : ∀ t : Process, Quiet (t.wins i) ∧ t.enteredFlag = false ∧ t.enteredCount = 0 →
      Quiet ((lockEntryFree t i e).wins i) ∧ (lockEntryFree t i e).enteredFlag = false ∧
        (lockEntryFree t i e).enteredCount = 0 := by
    intro t ht
    refine ⟨?_, ht.2⟩
    simpa [lockEntryFree, Quiet] using ht.1
  unfold serve performOpInLockQueue
  dsimp only
  split
  · refine hfree _ ?_
    refine grant_release_quiet hcons hg hd hidle hflag hcount ?_
    rw [Process.setWin_same]
    rfl
  · refine hfree _ ⟨?_, hflag, hcount⟩
    rw [Process.setWin_same]
    exact grant_quiet hcons hg hd

end

end Grant

structure Excluding (s : Process) : Prop where
  flag : s.enteredFlag = false
  count : s.enteredCount = 0
  quiet : ∀ i, Quiet (s.wins i)
  fresh : ∀ i, Marked (· < s.next) s i

theorem init_excluding (pool : Nat) : Excluding (Process.init pool) where
  flag := rfl
  count := rfl
  quiet _ := ⟨⟨rfl, rfl⟩, List.nodup_nil, fun _ _ h => nomatch h⟩
  fresh _ := ⟨fun _ h => (nomatch h), fun _ h => nomatch h⟩

theorem Excluding.change {s' : Process} (h : Excluding s) (hframe : Frame i s s')
    (hflag : s'.enteredFlag = false) (hcount : s'.enteredCount = 0) (hquiet : Quiet (s'.wins i))
    (hfresh : Marked (· < s.next) s' i) : Excluding s' where
  flag := hflag
  count := hcount
  quiet j := by
    by_cases hj : j = i
    · rw [hj]
      exact hquiet
    · rw [hframe.wins j hj]
      exact h.quiet j
  fresh j := by
    rw [hframe.next]
    by_cases hj : j = i
    · rw [hj]
      exact hfresh
    · have := h.fresh j
      unfold Marked at this ⊢
      rw [hframe.wins j hj]
      exact this

theorem grants_of_tryAcquire {w w' : Win} (h : tryAcquireWinLock w id lock = some w') :
    grants w.currentLockType lock = true ∧ w' = acquire w id lock := by
  unfold tryAcquireWinLock at h
  split at h
  · rename_i hg
    exact ⟨hg, (Option.some.inj h).symm⟩
  · cases h

theorem type_of_tryAcquire {w : Win} (h : tryAcquireWinLock w id lock = none) : w.currentLockType ≠ none := by
  intro hnone
  unfold tryAcquireWinLock at h
  rw [hnone] at h
  cases lock <;> cases h

theorem releaseLock_excluding (h : Excluding s) (hid : id ∈ (s.wins i).holders.map (·.id))
    (hserv : (s.wins i).holders.filter (·.id ≠ id) = [] → Servable (ready (s.wins i).queue)) :
    Excluding (releaseLock s i id) := by
  obtain ⟨hquiet, hflag, hcount⟩ := releaseLock_quiet h.flag h.count (h.quiet i) hid hserv
  exact h.change (frame_releaseLock s i id) hflag hcount hquiet ((h.fresh i).releaseLock id)

theorem markedQueue_ids (q : List Entry) (id : Nat) :
    (q.map fun x => if x.id = id then { x with allDataRecved := true } else x).map (·.id) =
      q.map (·.id) := by
  rw [List.map_map]
  refine List.map_congr_left ?_
  intro x _
  simp only [Function.comp_apply]
  split <;> rfl

theorem markedQueue_filter (q : List Entry) (id : Nat) :
    (q.map fun x => if x.id = id then { x with allDataRecved := true } else x).filter (·.id ≠ id) =
      q.filter (·.id ≠ id) := by
  induction q with
  | nil => rfl
  | cons x q ih =>
    by_cases hx : x.id = id
    · rw [List.map_cons, if_pos hx, List.filter_cons_of_neg (by simp [hx]),
        List.filter_cons_of_neg (by simp [hx]), ih]
    · rw [List.map_cons, if_neg hx, List.filter_cons_of_pos (by simp [hx]),
        List.filter_cons_of_pos (by simp [hx]), ih]

theorem recvComplete_excluding {entry : Option Nat} (h : Excluding s)
    (hthere : ∀ id ∈ entry, id ∈ (s.wins i).queue.map (·.id)) :
    ∃ s', piggybackLockOpRecvComplete s i entry = .ok s' ∧ Excluding s' := by
  cases entry with
  | none => exact ⟨s, rfl, h⟩
  | some id =>
    obtain ⟨hcons, hdist, hidle⟩ := h.quiet i
    have hmem := hthere id rfl
    unfold piggybackLockOpRecvComplete
    cases hfind : (s.wins i).queue.find? (·.id = id) with
    | none =>
      obtain ⟨x, hx, hid⟩ := List.mem_map.mp hmem
      have := List.find?_eq_none.mp hfind x hx
      simp [hid] at this
    | some e =>
      have he : e.id = id := by simpa using List.find?_some hfind
      have hqueue := List.mem_of_find?_eq_some hfind
      simp only
      -- the window with the entry marked
      generalize hw : ({ s.wins i with queue := (s.wins i).queue.map fun x =>
        if x.id = id then { x with allDataRecved := true } else x } : Win) = w
      have htype : w.currentLockType = (s.wins i).currentLockType := by rw [← hw]
      have hholders : w.holders = (s.wins i).holders := by rw [← hw]
      have hcnt : w.sharedLockRefCnt = (s.wins i).sharedLockRefCnt := by rw [← hw]
      have hids : w.queue.map (·.id) = (s.wins i).queue.map (·.id) := by
        rw [← hw]
        exact markedQueue_ids _ id
      have hfilter : w.queue.filter (·.id ≠ id) = (s.wins i).queue.filter (·.id ≠ id) := by
        rw [← hw]
        exact markedQueue_filter _ id
      have hfresh : (∀ x ∈ w.holders, x.id < s.next) ∧ ∀ x ∈ w.queue, x.id < s.next := by
        refine ⟨hholders ▸ (h.fresh i).1, ?_⟩
        intro x hx
        have hx' : x.id ∈ w.queue.map (·.id) := List.mem_map_of_mem hx
        rw [hids] at hx'
        obtain ⟨y, hy, hyid⟩ := List.mem_map.mp hx'
        rw [← hyid]
        exact (h.fresh i).2 y hy
      cases hacq : tryAcquireWinLock w id e.pkt.lock with
      | none =>
        simp only [hfind, hacq]
        refine ⟨_, rfl, h.change (frame_setWin s i w) h.flag h.count ?_ ?_⟩
        · rw [Process.setWin_same]
          refine ⟨by rw [htype, hcnt, hholders]; exact hcons, ?_,
            fun hnone => absurd hnone (type_of_tryAcquire hacq)⟩
          rw [Distinct, hholders, hids]
          exact hdist
        · unfold Marked
          rw [Process.setWin_same]
          exact hfresh
      | some w' =>
        simp only [hfind, hacq]
        obtain ⟨hg, rfl⟩ := grants_of_tryAcquire hacq
        have hcons' : Consistent w.currentLockType w.sharedLockRefCnt w.holders := by
          rw [htype, hcnt, hholders]
          exact hcons
        have hdist' : Distinct (w.holders ++ [holderOf e]) (w.queue.filter (·.id ≠ e.id)) := by
          obtain ⟨pre, rest, hsplit⟩ := List.append_of_mem hqueue
          rw [he, hfilter, ← he, hholders, hsplit]
          rw [hsplit] at hdist
          rw [hdist.filter_queue]
          exact hdist.hold
        have hidle' : w.currentLockType = none → ready (w.queue.filter (·.id ≠ e.id)) = [] := by
          intro hnone
          rw [he, hfilter, ready, List.filter_eq_nil_iff]
          intro x hx
          rw [hidle (htype ▸ hnone) x (List.mem_of_mem_filter hx)]
          decide
        subst he
        obtain ⟨hquiet, hflag, hcount⟩ := serve_quiet (s := s.setWin i w) (i := i)
          (e := { e with allDataRecved := true }) hcons' hg hdist' hidle' h.flag h.count
        refine ⟨_, rfl, h.change ?_ hflag hcount hquiet ?_⟩
        · exact (frame_setWin s i w).trans (frame_serve frame_releaseLock _ _ _ _)
        · exact Marked.serve (fun t id ht => ht.releaseLock id)
            (Marked.acquire (P := (· < s.next)) hfresh.1 ((h.fresh i).2 e hqueue) e.pkt.lock) hfresh.2

theorem append_excluding (h : Excluding s) (bytes : Int)
    (htype : (s.wins i).currentLockType ≠ none) (hid : e.id < s.next)
    (hnew : (∀ x ∈ (s.wins i).holders, x.id ≠ e.id) ∧ ∀ x ∈ (s.wins i).queue, x.id ≠ e.id) :
    Excluding (append s i e bytes) := by
  obtain ⟨hcons, hdist, -⟩ := h.quiet i
  refine h.change (frame_setWin s i _) h.flag h.count ?_ ?_
  · rw [append, Process.setWin_same]
    refine ⟨hcons, ?_, fun hnone => absurd hnone htype⟩
    rw [Distinct] at hdist ⊢
    rw [List.map_append, ← List.append_assoc, List.nodup_append]
    refine ⟨hdist, by simp, ?_⟩
    intro a ha b hb
    rw [List.map_singleton, List.mem_singleton] at hb
    subst hb
    rcases List.mem_append.mp ha with ha | ha
    · obtain ⟨x, hx, rfl⟩ := List.mem_map.mp ha
      exact hnew.1 x hx
    · obtain ⟨x, hx, rfl⟩ := List.mem_map.mp ha
      exact hnew.2 x hx
  · unfold Marked
    rw [append, Process.setWin_same]
    refine ⟨(h.fresh i).1, ?_⟩
    intro x hx
    rcases List.mem_append.mp hx with hx | hx
    · exact (h.fresh i).2 x hx
    · rw [List.mem_singleton.mp hx]
      exact hid

theorem receiveData_excluding {entry : Option Nat} {dropData arrived : Bool}
    (h : Excluding s) (hthere : ∀ id ∈ entry, id ∈ (s.wins i).queue.map (·.id)) :
    ∃ s', receiveData s i entry dropData arrived = .ok s' ∧ Excluding s' := by
  unfold receiveData
  split
  · exact recvComplete_excluding h hthere
  · exact ⟨_, rfl, h.flag, h.count, h.quiet, h.fresh⟩

theorem append_there (s : Process) (i id : Nat) (p : Packet) (all data : Bool) (bytes : Int) :
    ∀ x ∈ some id, x ∈ ((append s i ⟨id, p, all, data⟩ bytes).wins i).queue.map (·.id) := by
  intro x hx
  rw [← Option.some.inj hx, append, Process.setWin_same]
  simp

variable {limit : Int}

section
variable (h : Excluding s)
include h

theorem enqueueLockOrigin_excluding {p : Packet} (htype : (s.wins i).currentLockType ≠ none) (hid : id < s.next)
    (hnew : (∀ x ∈ (s.wins i).holders, x.id ≠ id) ∧ ∀ x ∈ (s.wins i).queue, x.id ≠ id) :
    ∃ s', enqueueLockOrigin limit s i id p = .ok s' ∧ Excluding s' := by
  unfold enqueueLockOrigin
  dsimp only
  split
  · split
    · exact ⟨s, rfl, h⟩
    · exact ⟨_, rfl, append_excluding h 0 htype hid hnew⟩
  · split
    · exact receiveData_excluding h (fun id hid => nomatch hid)
    · split
      · exact receiveData_excluding (append_excluding h _ htype hid hnew) (append_there s i id _ _ _ _)
      · exact receiveData_excluding (append_excluding h _ htype hid hnew) (append_there s i id _ _ _ _)

theorem Excluding.new (i : Nat) :
    (∀ x ∈ (s.wins i).holders, x.id ≠ s.next) ∧ ∀ x ∈ (s.wins i).queue, x.id ≠ s.next :=
  ⟨fun x hx => Nat.ne_of_lt ((h.fresh i).1 x hx), fun x hx => Nat.ne_of_lt ((h.fresh i).2 x hx)⟩

theorem Excluding.count_up : Excluding { s with next := s.next + 1 } where
  flag := h.flag
  count := h.count
  quiet := h.quiet
  fresh i := ⟨fun x hx => Nat.lt_succ_of_lt ((h.fresh i).1 x hx),
    fun x hx => Nat.lt_succ_of_lt ((h.fresh i).2 x hx)⟩

theorem granted_distinct (i : Nat) (lock : Lock) :
    Distinct ((s.wins i).holders ++ [⟨s.next, lock⟩]) (s.wins i).queue := by
  have hdist := (h.quiet i).distinct
  have hnew := h.new i
  rw [Distinct] at hdist ⊢
  rw [List.map_append, List.append_assoc, List.map_singleton, List.singleton_append,
    List.nodup_middle, List.nodup_cons]
  refine ⟨?_, hdist⟩
  intro hmem
  rcases List.mem_append.mp hmem with hx | hx
  · obtain ⟨x, hx, heq⟩ := List.mem_map.mp hx
    exact hnew.1 x hx heq
  · obtain ⟨x, hx, heq⟩ := List.mem_map.mp hx
    exact hnew.2 x hx heq

theorem granted_excluding (hg : grants (s.wins i).currentLockType lock = true) :
    Excluding ({ s with next := s.next + 1 }.setWin i (acquire (s.wins i) s.next lock)) := by
  refine h.count_up.change (frame_setWin _ i _) h.flag h.count ?_ ?_
  · rw [Process.setWin_same]
    exact grant_quiet (h.quiet i).consistent hg (granted_distinct h i lock)
  · unfold Marked
    rw [Process.setWin_same]
    have hfresh := h.count_up.fresh i
    exact ⟨Marked.acquire (P := (· < s.next + 1)) hfresh.1 (Nat.lt_succ_self _) lock, hfresh.2⟩

theorem arrive_excluding {p : Packet} : ∃ s', arrive limit s i p = .ok s' ∧ Excluding s' := by
  unfold arrive
  dsimp only
  cases hacq : tryAcquireWinLock (s.wins i) s.next p.lock with
  | none =>
    exact enqueueLockOrigin_excluding h.count_up (type_of_tryAcquire hacq) (Nat.lt_succ_self _)
      (h.new i)
  | some w =>
    obtain ⟨hg, rfl⟩ := grants_of_tryAcquire hacq
    refine ⟨_, rfl, ?_⟩
    have hgranted := granted_excluding h hg
    split
    · obtain ⟨hcons, -, hidle⟩ := h.quiet i
      have hready : (s.wins i).currentLockType = none → ready (s.wins i).queue = [] := by
        intro hnone
        rw [ready, List.filter_eq_nil_iff]
        intro x hx
        rw [hidle hnone x hx]
        decide
      obtain ⟨hquiet, hflag, hcount⟩ := grant_release_quiet
        (s := { s with next := s.next + 1 }.setWin i (acquire (s.wins i) s.next p.lock)) (i := i)
        hcons hg (granted_distinct h i p.lock) hready h.flag h.count
        (by rw [Process.setWin_same]; rfl)
      exact hgranted.change (frame_releaseLock _ i _) hflag hcount hquiet
        ((hgranted.fresh i).releaseLock _)
    · exact hgranted

theorem acquireLocalLock_excluding {requested : Lock} : Excluding (acquireLocalLock s i requested) := by
  unfold acquireLocalLock
  dsimp only
  cases hacq : tryAcquireWinLock (s.wins i) s.next requested with
  | none =>
    dsimp only
    split
    · exact h.count_up
    · exact append_excluding h.count_up 0 (type_of_tryAcquire hacq) (Nat.lt_succ_self s.next)
        (h.new i)
  | some w =>
    dsimp only
    obtain ⟨hg, rfl⟩ := grants_of_tryAcquire hacq
    exact granted_excluding h hg

end

def Possible (s : Process) : Event → Prop
  | .release i id => id ∈ (s.wins i).holders.map (·.id)
  | .recvComplete k => k < s.drains.length
  | _ => True

def NotStale (s : Process) : Event → Prop
  | .recvComplete k => ∀ d ∈ s.drains[k]?, ∀ id ∈ d.entry, id ∈ (s.wins d.win).queue.map (·.id)
  | _ => True

/-- When the last holder releases the lock, the queue can be served. -/
def ServableNext (s : Process) : Event → Prop
  | .release i id =>
    (s.wins i).holders.filter (·.id ≠ id) = [] → Servable (ready (s.wins i).queue)
  | _ => True

theorem step_excluding {e : Event} (h : Excluding s)
    (hpossible : Possible s e) (hstale : NotStale s e) (hserv : ServableNext s e) :
    ∃ s', step limit s e = .ok s' ∧ Excluding s' := by
  cases e with
  | arrive i p => exact arrive_excluding h
  | acquireLocal i requested => exact ⟨_, rfl, acquireLocalLock_excluding h⟩
  | release i id =>
    refine ⟨releaseLock s i id, ?_, releaseLock_excluding h hpossible hserv⟩
    simp only [step]
    exact require_bind_eq_ok.mpr ⟨hpossible, rfl⟩
  | recvComplete k =>
    have hsome : s.drains[k]? = some s.drains[k] := List.getElem?_eq_getElem hpossible
    simp only [step, hsome]
    exact recvComplete_excluding (s := { s with drains := s.drains.eraseIdx k })
      ⟨h.flag, h.count, h.quiet, h.fresh⟩ (hstale _ hsome)

/-- What the lock of a window says about its holders. -/
structure Exclusion (w : Win) : Prop where
  alone : ∀ x ∈ w.holders, x.lock = .exclusive → w.holders = [x]
  none : w.currentLockType = none ↔ w.holders = []
  shared : w.currentLockType = some .shared ↔ w.holders ≠ [] ∧ ∀ x ∈ w.holders, x.lock = .shared
  exclusive : w.currentLockType = some .exclusive ↔ ∃ x, w.holders = [x] ∧ x.lock = .exclusive
  count : w.sharedLockRefCnt = (w.holders.filter (·.lock = .shared)).length

theorem Quiet.exclusion {w : Win} (h : Quiet w) : Exclusion w := by
  have hcons := h.consistent
  cases htype : w.currentLockType with
  | none =>
    rw [htype] at hcons
    obtain ⟨hnil, hcnt⟩ := hcons
    constructor <;> simp [htype, hnil, hcnt]
  | some lock =>
    rw [htype] at hcons
    cases lock with
    | shared =>
      obtain ⟨hne, hshared, hcnt⟩ := hcons
      have hnot : ¬ ∃ x, w.holders = [x] ∧ x.lock = .exclusive := by
        rintro ⟨x, hx, hlock⟩
        rw [hshared x (by rw [hx]; simp)] at hlock
        cases hlock
      refine ⟨?_, by simp [htype, hne], by simp [htype, hne]; exact hshared,
        by simp only [htype, hnot]; simp, ?_⟩
      · intro x hx hlock
        rw [hshared x hx] at hlock
        cases hlock
      · rw [hcnt, List.filter_eq_self.mpr]
        intro x hx
        simpa using hshared x hx
    | exclusive =>
      obtain ⟨⟨x, hx, hlock⟩, hcnt⟩ := hcons
      constructor <;> simp [htype, hx, hlock, hcnt]

/-- In every run in which no stale entry is used and each released queue can be served, the lock of
every window excludes. -/
theorem lock_exclusion (limit : Int) (pool : Nat) (os : List Event) (hrun : Along (step limit)
      (fun s e => Possible s e ∧ NotStale s e ∧ ServableNext s e) (Process.init pool) os) :
    ∃ s, run (step limit) (Process.init pool) os = .ok s ∧ ∀ i, Exclusion (s.wins i) := by
  obtain ⟨s, hs, hexcl⟩ := run_of_along (I := Excluding)
    (fun s e h he => step_excluding h he.1 he.2.1 he.2.2) (init_excluding pool) hrun
  exact ⟨s, hs, fun i => (hexcl.quiet i).exclusion⟩

instance decidableServable : (es : List Entry) → Decidable (Servable es)
  | [] => isTrue trivial
  | e :: es =>
    match hlock : e.pkt.lock with
    | .exclusive =>
      have := decidableServable es
      decidable_of_iff (e.pkt.passing = true → Servable es) (by rw [Servable, hlock])
    | .shared =>
      decidable_of_iff (e.pkt.passing = true → (∀ x ∈ es, x.pkt.lock = .shared → x.pkt.passing = true) ∧
        ((∀ x ∈ es, x.pkt.lock = .exclusive) ∨
          ∀ x ∈ es, x.pkt.lock = .exclusive → x.pkt.passing = true)) (by rw [Servable, hlock])

instance (s : Process) (e : Event) : Decidable (Possible s e) :=
  match e with
  | .release i id => inferInstanceAs (Decidable (id ∈ (s.wins i).holders.map (·.id)))
  | .recvComplete k => inferInstanceAs (Decidable (k < s.drains.length))
  | .arrive _ _ | .acquireLocal _ _ => inferInstanceAs (Decidable True)

instance (s : Process) (e : Event) : Decidable (NotStale s e) :=
  match e with
  | .recvComplete k =>
    inferInstanceAs (Decidable (∀ d ∈ s.drains[k]?, ∀ id ∈ d.entry, id ∈ (s.wins d.win).queue.map (·.id)))
  | .arrive _ _ | .acquireLocal _ _ | .release _ _ => inferInstanceAs (Decidable True)

instance (s : Process) (e : Event) : Decidable (ServableNext s e) :=
  match e with
  | .release i id =>
    inferInstanceAs (Decidable ((s.wins i).holders.filter (·.id ≠ id) = [] →
      Servable (ready (s.wins i).queue)))
  | .arrive _ _ | .acquireLocal _ _ | .recvComplete _ => inferInstanceAs (Decidable True)

def lockPacket (lock : Lock) : Packet := ⟨lock, false, false, false, true, 0, true, true, true⟩

def immedPacket (lock : Lock) (unlock : Bool) : Packet :=
  ⟨lock, true, unlock, false, true, 0, true, true, true⟩

def servedQueue : List Event :=
  [.arrive 0 (lockPacket .exclusive), .arrive 0 (immedPacket .shared true),
    .arrive 0 (immedPacket .exclusive true), .arrive 0 (lockPacket .exclusive),
    .acquireLocal 1 .shared,
    .arrive 1 ⟨.exclusive, true, true, false, false, 8, false, true, true⟩,
    .recvComplete 0, .release 0 0, .release 1 4]

theorem lock_exclusion_servedQueue :
    ∃ s, run (step 100) (Process.init 3) servedQueue = .ok s ∧ (s.wins 0).holders = [⟨3, .exclusive⟩] ∧
      (s.wins 1).holders = [] ∧ ∀ i, Exclusion (s.wins i) := by
  obtain ⟨s, hrun, hexcl⟩ := lock_exclusion 100 3 servedQueue (by decide +kernel)
  obtain ⟨s', hrun', hobs⟩ := ok_of_observed
    (f := fun s : Process => ((s.wins 0).holders, (s.wins 1).holders))
    (show (run (step 100) (Process.init 3) servedQueue).toOption.map
      (fun s : Process => ((s.wins 0).holders, (s.wins 1).holders)) =
        some ([⟨3, .exclusive⟩], []) by decide +kernel)
  have heq : s = s' := Except.ok.inj (hrun.symm.trans hrun')
  subst heq
  exact ⟨s, hrun, congrArg Prod.fst hobs, congrArg Prod.snd hobs, hexcl⟩

theorem lock_not_exclusion :
    ∃ s, run (step 100) (Process.init 3)
        [.arrive 0 (lockPacket .exclusive), .arrive 0 (immedPacket .shared true),
          .arrive 0 (lockPacket .shared), .arrive 0 (lockPacket .exclusive), .release 0 0] = .ok s ∧
      (s.wins 0).holders = [⟨2, .shared⟩, ⟨3, .exclusive⟩] ∧ ¬ Exclusion (s.wins 0) := by
  obtain ⟨s, hrun, hobs⟩ := ok_of_observed (f := fun s : Process => (s.wins 0).holders)
    (show (run (step 100) (Process.init 3)
        [.arrive 0 (lockPacket .exclusive), .arrive 0 (immedPacket .shared true),
          .arrive 0 (lockPacket .shared), .arrive 0 (lockPacket .exclusive),
          .release 0 0]).toOption.map (fun s : Process => (s.wins 0).holders) =
        some [⟨2, .shared⟩, ⟨3, .exclusive⟩] by decide +kernel)
  refine ⟨s, hrun, hobs, ?_⟩
  intro h
  have := h.alone ⟨3, .exclusive⟩ (by rw [hobs]; simp) rfl
  rw [hobs] at this
  cases this

end FgMpi.Rma.LockQueue
