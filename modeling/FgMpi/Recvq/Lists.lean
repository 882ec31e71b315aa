import FgMpi.Recvq.Queues

/-! Every operation on the pointers does what a list function does. -/

namespace FgMpi.Recvq.Lists
open Machine.Checked Machine.LinkedQueue
open Tag Recvq.Match Recvq.Queues
open Function (update update_of_ne update_self)

structure Rep (s : State) (L : QId → List ReqId) : Prop where
  queue : ∀ q, IsQueue s.next (s.queue q) (L q)
  disjoint : ∀ q q' x, x ∈ L q → x ∈ L q' → q = q'
  old : ∀ q x, x ∈ L q → x < s.clock

theorem init_rep : Rep State.init (fun _ => []) where
  queue _ := isQueue_empty
  disjoint _ _ _ hx := by cases hx
  old _ _ hx := by cases hx

variable {s : State} {L : QId → List ReqId}

theorem Rep.length_lt (h : Rep s L) (q : QId) : (L q).length < s.clock + 1 := by
  have hsub : L q ⊆ List.range s.clock := by
    intro x hx
    rw [List.mem_range]
    exact h.old q x hx
  have hle := (List.subperm_of_subset (h.queue q).nodup hsub).length_le
  rw [List.length_range] at hle
  omega

theorem Rep.list_eq (h : Rep s L) : s.list = L := by
  funext q
  exact walk_eq (h.queue q).chain (h.length_lt q)

theorem Rep.congr {s' : State} (h : Rep s L) (hn : s'.next = s.next)
    (hq : s'.queue = s.queue) (hc : s'.clock = s.clock) : Rep s' L := by
  constructor
  · rw [hn, hq]; exact h.queue
  · exact h.disjoint
  · rw [hc]; exact h.old

def tick (s : State) : State := { s with clock := s.clock + 1 }

theorem Rep.tick (h : Rep s L) : Rep (tick s) L where
  queue := h.queue
  disjoint := h.disjoint
  old q x hx := Nat.lt_succ_of_lt (h.old q x hx)

variable {xs ys : List ReqId} {x : ReqId}

theorem mem_of_mem_removed {q : QId} (hl : L q = xs ++ x :: ys) {p : QId} {y : ReqId}
    (hy : y ∈ update L q (xs ++ ys) p) : y ∈ L p := by
  by_cases hp : p = q
  · subst hp
    rw [update_self] at hy
    rw [hl]
    simp only [List.mem_append, List.mem_cons] at hy ⊢
    tauto
  · rwa [update_of_ne hp] at hy

theorem mem_enqueued {q p : QId} {y : ReqId}
    (hy : y ∈ update L q (L q ++ [x]) p) : y ∈ L p ∨ p = q ∧ y = x := by
  by_cases hp : p = q
  · subst hp
    rw [update_self, List.mem_append, List.mem_singleton] at hy
    exact hy.imp id (fun he => ⟨rfl, he⟩)
  · rw [update_of_ne hp] at hy
    exact Or.inl hy

theorem Rep.dequeue (h : Rep s L) {q : QId} (hl : L q = xs ++ x :: ys) :
    Rep (dequeue s q xs.getLast? x) (update L q (xs ++ ys)) := by
  have hq := h.queue q
  rw [hl] at hq
  obtain ⟨hnew, hframe⟩ := unlink_spec hq
  refine ⟨?_, ?_, ?_⟩
  · intro p
    by_cases hp : p = q
    · subst hp
      simp only [Queues.dequeue, update_self]
      exact hnew
    · simp only [Queues.dequeue, update_of_ne hp]
      refine (h.queue p).congr ?_
      intro y hy
      refine hframe y ?_
      intro hxs
      exact hp (h.disjoint p q y hy (by rw [hl]; simp [hxs]))
  · intro p p' y hy hy'
    exact h.disjoint p p' y (mem_of_mem_removed hl hy) (mem_of_mem_removed hl hy')
  · intro p y hy
    exact h.old p y (mem_of_mem_removed hl hy)

theorem Rep.enqueue (h : Rep s L) (q : QId) (req : Request) :
    Rep (Lists.tick (enqueue s q req)) (update L q (L q ++ [s.clock])) := by
  have hfresh : ∀ p, s.clock ∉ L p := fun p hm => Nat.lt_irrefl _ (h.old p _ hm)
  obtain ⟨hnew, hframe⟩ := append_spec (h.queue q) (hfresh q)
  refine ⟨?_, ?_, ?_⟩
  · intro p
    by_cases hp : p = q
    · subst hp
      simp only [Lists.tick, Queues.enqueue, update_self]
      exact hnew
    · simp only [Lists.tick, Queues.enqueue, update_of_ne hp]
      refine (h.queue p).congr ?_
      intro y hy
      refine hframe y ?_ ?_
      · intro hyq
        exact hp (h.disjoint p q y hy hyq)
      · rintro rfl
        exact hfresh p hy
  · intro p p' y hy hy'
    rcases mem_enqueued hy with hold | ⟨hp, hc⟩
    · rcases mem_enqueued hy' with hold' | ⟨_, hc'⟩
      · exact h.disjoint p p' y hold hold'
      · exact absurd (hc' ▸ hold) (hfresh p)
    · rcases mem_enqueued hy' with hold' | ⟨hp', _⟩
      · exact absurd (hc ▸ hold') (hfresh p')
      · rw [hp, hp']
  · intro p y hy
    simp only [Lists.tick, Queues.enqueue]
    rcases mem_enqueued hy with hy | ⟨_, rfl⟩
    · exact Nat.lt_succ_of_lt (h.old p y hy)
    · exact Nat.lt_succ_self _

structure FirstAt (p : ReqId → Bool) (l xs : List ReqId) (x : ReqId) (ys : List ReqId) : Prop where
  split : l = xs ++ x :: ys
  before : ∀ y ∈ xs, p y = false
  here : p x = true

theorem FirstAt.mem {p : ReqId → Bool} {l : List ReqId} (h : FirstAt p l xs x ys) : x ∈ l := by
  rw [h.split]
  simp

theorem Rep.search (h : Rep s L) (q : QId) (p : ReqId → Bool) :
    (search s.next p (s.clock + 1) none (s.queue q).head = none ∧ ∀ y ∈ L q, p y = false) ∨
      ∃ xs x ys, FirstAt p (L q) xs x ys ∧
        search s.next p (s.clock + 1) none (s.queue q).head = some (xs.getLast?, x) := by
  rcases search_spec p none (h.queue q).chain (h.length_lt q) with hnone |
    ⟨xs, x, ys, hl, hxs, hx, hfound⟩
  · exact Or.inl hnone
  · right
    refine ⟨xs, x, ys, ⟨hl, hxs, hx⟩, ?_⟩
    rw [hfound]
    cases xs <;> simp

theorem Rep.searchLast (h : Rep s L) (q : QId) (p : ReqId → Bool) :
    searchLast s.next p (s.clock + 1) none (s.queue q).head none = none ∨
      ∃ xs x ys, L q = xs ++ x :: ys ∧ p x = true ∧
        searchLast s.next p (s.clock + 1) none (s.queue q).head none =
          some (xs.getLast?, x) := by
  rcases searchLast_spec p none none (h.queue q).chain (h.length_lt q) with
    ⟨hnone, _⟩ | ⟨xs, x, ys, hl, _, hx, hfound⟩
  · exact Or.inl hnone
  · right
    refine ⟨xs, x, ys, hl, hx, ?_⟩
    rw [hfound]
    cases xs <;> simp

section Calls
variable {b : Build} {s s' : State} {L : QId → List ReqId} {ret : Ret}
  {source me : BitVec 32} {tag : TagVal} {contextId : BitVec 16} {comm : Nat}

def wants (b : Build) (s : State) (source : BitVec 32) (tag : TagVal) (contextId : BitVec 16)
    (me : BitVec 32) (r : ReqId) : Bool :=
  matchWithLeftMask b.fg (s.req r).info (searchMatch source tag contextId me)
    (searchMask source tag)

def takes (b : Build) (s : State) (info : MessageMatch) (r : ReqId) : Bool :=
  matchWithLeftRightMask b.fg (s.req r).info { info with tag := workingTag info.tag }
    (s.req r).mask

theorem post_cases (h : Rep s L) {moribund : Bool}
    (hc : call b s (.post source tag contextId me comm moribund) = .ok (s', ret)) :
    ∃ i, queueIndex b me = .ok i ∧
      ((∃ xs u ys, FirstAt (wants b s source tag contextId me) (L (.unexpected, i)) xs u ys ∧
          s' = setComm (dequeue s (.unexpected, i) xs.getLast? u) u comm ∧ ret = .found u) ∨
        (∀ u ∈ L (.unexpected, i), wants b s source tag contextId me u = false) ∧
          ((moribund = true ∧ ret = .failed s.clock ∧ ∃ req,
              s' = { s with req := update s.req s.clock req }) ∨
            s' = enqueue s (.posted, i) ⟨⟨tag, source, contextId, me⟩,
              postedMask ⟨tag, source, contextId, me⟩, 0, comm⟩ ∧ ret = .enqueued s.clock)) := by
  obtain ⟨i, hi, hk⟩ := bind_eq_ok.mp hc
  refine ⟨i, hi, ?_⟩
  rcases h.search (.unexpected, i) (wants b s source tag contextId me) with
    ⟨hnone, hall⟩ | ⟨xs, u, ys, hfirst, hsome⟩
  · right
    refine ⟨hall, ?_⟩
    have hs : searchUnexpected b s i source tag contextId me = none := hnone
    simp only [hs] at hk
    split at hk
    · rename_i hm
      cases hk
      exact Or.inl ⟨hm.2, rfl, _, rfl⟩
    · cases hk
      exact Or.inr ⟨rfl, rfl⟩
  · left
    have hs : searchUnexpected b s i source tag contextId me = some (xs.getLast?, u) := hsome
    simp only [hs] at hk
    cases hk
    exact ⟨xs, u, ys, hfirst, rfl, rfl⟩

theorem matchedProbe_cases (h : Rep s L)
    (hc : call b s (.matchedProbe source tag contextId me comm) = .ok (s', ret)) :
    ∃ i, queueIndex b me = .ok i ∧
      ((∃ xs u ys, FirstAt (wants b s source tag contextId me) (L (.unexpected, i)) xs u ys ∧
          s' = setComm (dequeue s (.unexpected, i) xs.getLast? u) u comm ∧ ret = .found u) ∨
        s' = s ∧ ret = .nothing) := by
  obtain ⟨i, hi, hk⟩ := bind_eq_ok.mp hc
  refine ⟨i, hi, ?_⟩
  rcases h.search (.unexpected, i) (wants b s source tag contextId me) with
    ⟨hnone, _⟩ | ⟨xs, u, ys, hfirst, hsome⟩
  · right
    have hs : searchUnexpected b s i source tag contextId me = none := hnone
    simp only [hs] at hk
    cases hk
    exact ⟨rfl, rfl⟩
  · left
    have hs : searchUnexpected b s i source tag contextId me = some (xs.getLast?, u) := hsome
    simp only [hs] at hk
    cases hk
    exact ⟨xs, u, ys, hfirst, rfl, rfl⟩

theorem probe_cases (hc : call b s (.probe source tag contextId me) = .ok (s', ret)) : s' = s := by
  obtain ⟨i, _, hk⟩ := bind_eq_ok.mp hc
  split at hk <;> cases hk <;> rfl

theorem cancelSend_cases (h : Rep s L) {sreqId : Nat} {info : MessageMatch}
    (hc : call b s (.cancelSend sreqId info) = .ok (s', ret)) :
    ∃ i, queueIndex b info.destRank = .ok i ∧
      ((∃ xs u ys, L (.unexpected, i) = xs ++ u :: ys ∧
          s' = dequeue s (.unexpected, i) xs.getLast? u ∧ ret = .found u) ∨
        s' = s ∧ ret = .nothing) := by
  obtain ⟨i, hi, hk⟩ := bind_eq_ok.mp hc
  refine ⟨i, hi, ?_⟩
  rcases h.searchLast (.unexpected, i) (fun r => (s.req r).senderReqId == sreqId &&
      matchWithLeftMask b.fg (s.req r).info info
        ⟨maskErrorBits (BitVec.allOnes 32), BitVec.allOnes 32, BitVec.allOnes 16,
          BitVec.allOnes 32⟩) with hnone | ⟨xs, u, ys, hl, _, hsome⟩
  · right
    simp only [hnone] at hk
    cases hk
    exact ⟨rfl, rfl⟩
  · left
    simp only [hsome] at hk
    cases hk
    exact ⟨xs, u, ys, hl, rfl, rfl⟩

theorem cancelRecv_cases (h : Rep s L) {rreq : ReqId} {hook : Bool}
    (hc : call b s (.cancelRecv rreq hook) = .ok (s', ret)) :
    ∃ i, queueIndex b (s.req rreq).info.destRank = .ok i ∧
      ((∃ xs ys, L (.posted, i) = xs ++ rreq :: ys ∧ s' = dequeue s (.posted, i) xs.getLast? rreq ∧
          ret = if hook then .nothing else .found rreq) ∨
        s' = s ∧ ret = .nothing) := by
  obtain ⟨i, hi, hk⟩ := bind_eq_ok.mp hc
  refine ⟨i, hi, ?_⟩
  rcases h.search (.posted, i) (fun r => r == rreq) with
    ⟨hnone, _⟩ | ⟨xs, x, ys, hfirst, hsome⟩
  · right
    simp only [hnone] at hk
    cases hk
    exact ⟨rfl, rfl⟩
  · left
    have hx : x = rreq := by simpa using hfirst.here
    subst hx
    simp only [hsome] at hk
    cases hk
    exact ⟨xs, ys, hfirst.split, rfl, rfl⟩

theorem fdpLoop_default (i : Nat) (info : MessageMatch) (n : Nat) (prev cur : Option ReqId) :
    fdpLoop b (fun _ => false) i info n s prev cur =
      match search s.next (fun r => matchWithLeftRightMask b.fg (s.req r).info info (s.req r).mask)
        n prev cur with
      | some r => (dequeue s (.posted, i) r.1 r.2, some r.2)
      | none => (s, none) := by
  induction n generalizing prev cur with
  | zero => rfl
  | succ n ih =>
    cases cur with
    | none => rfl
    | some x =>
      by_cases hx : matchWithLeftRightMask b.fg (s.req x).info info (s.req x).mask = true
      · simp [fdpLoop, search, hx]
      · simp [fdpLoop, search, hx, ih]

theorem arrive_cases (h : Rep s L) (hb : b.fg = true) {sent : MessageMatch} {flag : Errflag}
    {sreqId : Nat} {revoked : Bool}
    (hc : call b s (.arrive sent flag sreqId (fun _ => false) revoked) = .ok (s', ret)) :
    ∃ i, queueIndex b sent.destRank = .ok i ∧
      ((∃ xs p ys, FirstAt (takes b s (onWire sent flag)) (L (.posted, i)) xs p ys ∧
          s' = dequeue s (.posted, i) xs.getLast? p ∧ ret = .found p) ∨
        (∀ p ∈ L (.posted, i), takes b s (onWire sent flag) p = false) ∧
          s' = enqueue s (.unexpected, i) ⟨{ onWire sent flag with
            tag := restoredTag (onWire sent flag).tag }, ⟨0, 0, 0, 0⟩, sreqId, 0⟩ ∧
          ret = .enqueued s.clock) := by
  obtain ⟨i, hi, hk⟩ := bind_eq_ok.mp hc
  refine ⟨i, hi, ?_⟩
  rw [fdpLoop_default] at hk
  rcases h.search (.posted, i) (takes b s (onWire sent flag)) with
    ⟨hnone, hall⟩ | ⟨xs, p, ys, hfirst, hsome⟩
  · right
    unfold takes at hnone
    simp only [hnone] at hk
    rw [if_neg (by simp [hb])] at hk
    cases hk
    exact ⟨hall, rfl, rfl⟩
  · left
    unfold takes at hsome
    simp only [hsome] at hk
    cases hk
    exact ⟨xs, p, ys, hfirst, rfl, rfl⟩

theorem step_cases {w w' : World} {o : Op} (h : step b w o = .ok w') :
    ∃ s' ret, call b w.state o = .ok (s', ret) ∧ w' = ⟨tick s', w.hist ++ [(o, ret)]⟩ := by
  obtain ⟨r, hr, hk⟩ := bind_eq_ok.mp h
  obtain ⟨c, hc, hr'⟩ := bind_eq_ok.mp hr
  cases hr'
  cases hk
  exact ⟨c.1, c.2, hc, rfl⟩

end Calls

end FgMpi.Recvq.Lists
