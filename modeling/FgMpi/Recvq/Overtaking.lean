import FgMpi.Recvq.Matching

/-! Messages are matched in the order they arrive in and receives in the order they are posted in. -/

namespace FgMpi.Recvq.Overtaking
open Machine.Checked Machine.Runs
open Tag Recvq.Match Recvq.Queues Recvq.Lists Recvq.Matching
open Function (update update_of_ne update_self)

def message : Op → Option MessageMatch
  | .arrive sent flag _ _ _ => some (onWire sent flag)
  | _ => none

def postCriteria : Op → Option MessageMatch
  | .post source tag contextId me _ _ => some ⟨tag, source, contextId, me⟩
  | _ => none

def criteria : Op → Option MessageMatch
  | .matchedProbe source tag contextId me _ => some ⟨tag, source, contextId, me⟩
  | o => postCriteria o

def removesMessage : Op → Bool
  | .post _ _ _ _ _ _ => true
  | .matchedProbe _ _ _ _ _ => true
  | .cancelSend _ _ => true
  | _ => false

def removesReceive : Op → Bool
  | .arrive _ _ _ _ _ => true
  | .cancelRecv _ _ => true
  | _ => false

section History
variable (hist : List (Op × Ret))

/-- At time `t` the receive or matched probe `r` and the message `m` are paired: either `r` takes
`m` from the unexpected queue, or `m` takes `r` from the posted queue. -/
inductive PairedAt : (t r m : Nat) → Prop
  | taken {r m : Nat} {o : Op} {c : MessageMatch} (ho : hist[r]? = some (o, .found m))
      (hc : criteria o = some c) : PairedAt r r m
  | delivered {r m : Nat} {o : Op} {i : MessageMatch} (ho : hist[m]? = some (o, .found r))
      (hi : message o = some i) : PairedAt m r m

def MessageGone (t m : Nat) : Prop :=
  (∃ t' < t, ∃ o, hist[t']? = some (o, .found m) ∧ removesMessage o = true) ∨
    m < t ∧ ∃ o i r, hist[m]? = some (o, .found r) ∧ message o = some i

def ReceiveGone (t r : Nat) : Prop :=
  (∃ t' < t, ∃ o, hist[t']? = some (o, .found r) ∧ removesReceive o = true) ∨
    r < t ∧ ∃ o c m, hist[r]? = some (o, .found m) ∧ postCriteria o = some c

def Arrives (m : Nat) (i : MessageMatch) : Prop := ∃ o ret, hist[m]? = some (o, ret) ∧ message o = some i

def Posts (r : Nat) (c : MessageMatch) : Prop :=
  ∃ o ret, hist[r]? = some (o, ret) ∧ postCriteria o = some c

def Asks (r : Nat) (c : MessageMatch) : Prop := ∃ o ret, hist[r]? = some (o, ret) ∧ criteria o = some c

def MessagesInOrder : Prop :=
  ∀ t r m₁ m₂ c i₁ i₂, Arrives hist m₁ i₁ → Arrives hist m₂ i₂ → m₁ < m₂ →
    Asks hist r c → Matches c i₁ → Matches c i₂ → PairedAt hist t r m₂ → MessageGone hist t m₁

def ReceivesInOrder : Prop :=
  ∀ t r₁ r₂ m c₁ c₂ i, Posts hist r₁ c₁ → Asks hist r₂ c₂ → r₁ < r₂ →
    Arrives hist m i → Matches c₁ i → Matches c₂ i → PairedAt hist t r₂ m → ReceiveGone hist t r₁

def removes (o : Op) : Bool := removesMessage o || removesReceive o

structure Removals : Prop where
  once : ∀ (t t' : Nat) (o o' : Op) (x : ReqId), hist[t]? = some (o, .found x) →
    hist[t']? = some (o', .found x) → removes o = true → removes o' = true → t = t'
  ofMessage : ∀ (t : Nat) (o : Op) (x : ReqId), hist[t]? = some (o, .found x) →
    removesMessage o = true → ∃ o' i, hist[x]? = some (o', .enqueued x) ∧ message o' = some i
  ofReceive : ∀ (t : Nat) (o : Op) (x : ReqId), hist[t]? = some (o, .found x) →
    removesReceive o = true → ∃ o' c, hist[x]? = some (o', .enqueued x) ∧ postCriteria o' = some c

end History

section Growing
variable {hist : List (Op × Ret)} {e : Op × Ret} {t t' x : Nat}

variable {a : Op × Ret}

theorem getElem?_snoc_of_some (h : hist[t]? = some a) : (hist ++ [e])[t]? = some a := by
  obtain ⟨hlt, _⟩ := List.getElem?_eq_some_iff.mp h
  rw [List.getElem?_append_left hlt]
  exact h

theorem getElem?_snoc_cases (h : (hist ++ [e])[t]? = some a) :
    hist[t]? = some a ∨ t = hist.length ∧ a = e := by
  rcases Nat.lt_trichotomy t hist.length with hlt | rfl | hgt
  · left
    rwa [List.getElem?_append_left hlt] at h
  · right
    rw [List.getElem?_concat_length] at h
    exact ⟨rfl, (Option.some.inj h).symm⟩
  · rw [List.getElem?_eq_none (by simp; omega)] at h
    cases h

theorem getElem?_snoc_old (h : (hist ++ [e])[t]? = some a) (ht : t < hist.length) : hist[t]? = some a := by
  rcases getElem?_snoc_cases h with h | ⟨rfl, _⟩
  · exact h
  · exact absurd ht (Nat.lt_irrefl _)

theorem MessageGone.mono (h : MessageGone hist t x) (ht : t ≤ t') : MessageGone (hist ++ [e]) t' x := by
  rcases h with ⟨k, hk, o, ho, hr⟩ | ⟨hx, o, i, r, ho, hi⟩
  · exact Or.inl ⟨k, by omega, o, getElem?_snoc_of_some ho, hr⟩
  · exact Or.inr ⟨by omega, o, i, r, getElem?_snoc_of_some ho, hi⟩

theorem ReceiveGone.mono (h : ReceiveGone hist t x) (ht : t ≤ t') : ReceiveGone (hist ++ [e]) t' x := by
  rcases h with ⟨k, hk, o, ho, hr⟩ | ⟨hx, o, c, m, ho, hc⟩
  · exact Or.inl ⟨k, by omega, o, getElem?_snoc_of_some ho, hr⟩
  · exact Or.inr ⟨by omega, o, c, m, getElem?_snoc_of_some ho, hc⟩

theorem PairedAt.cases_snoc {r m : Nat} (h : PairedAt (hist ++ [e]) t r m) :
    PairedAt hist t r m ∨
      t = hist.length ∧ r = hist.length ∧ e.2 = .found m ∧ (∃ c, criteria e.1 = some c) ∨
      t = hist.length ∧ m = hist.length ∧ e.2 = .found r ∧ ∃ i, message e.1 = some i := by
  cases h with
  | taken ho hc =>
    rcases getElem?_snoc_cases ho with ho | ⟨rfl, he⟩
    · exact Or.inl (.taken ho hc)
    · subst he
      exact Or.inr (Or.inl ⟨rfl, rfl, rfl, _, hc⟩)
  | delivered ho hi =>
    rcases getElem?_snoc_cases ho with ho | ⟨rfl, he⟩
    · exact Or.inl (.delivered ho hi)
    · subst he
      exact Or.inr (Or.inr ⟨rfl, rfl, rfl, _, hi⟩)

theorem Removals.snoc (h : Removals hist) (honce : ∀ x, e.2 = .found x → removes e.1 = true →
      ∀ (t : Nat) (o : Op), hist[t]? = some (o, .found x) → removes o = false)
    (hmessage : ∀ x, e.2 = .found x → removesMessage e.1 = true →
      ∃ o' i, hist[x]? = some (o', .enqueued x) ∧ message o' = some i)
    (hreceive : ∀ x, e.2 = .found x → removesReceive e.1 = true →
      ∃ o' c, hist[x]? = some (o', .enqueued x) ∧ postCriteria o' = some c) :
    Removals (hist ++ [e]) := by
  refine ⟨?_, ?_, ?_⟩
  · intro t t' o o' x ht ht' ho ho'
    rcases getElem?_snoc_cases ht with hold | ⟨htn, he⟩
    · rcases getElem?_snoc_cases ht' with hold' | ⟨_, he'⟩
      · exact h.once t t' o o' x hold hold' ho ho'
      · subst he'
        rw [honce x rfl ho' t o hold] at ho
        cases ho
    · rcases getElem?_snoc_cases ht' with hold' | ⟨htn', _⟩
      · subst he
        rw [honce x rfl ho t' o' hold'] at ho'
        cases ho'
      · rw [htn, htn']
  · intro t o x ht ho
    rcases getElem?_snoc_cases ht with ht | ⟨rfl, rfl⟩
    · obtain ⟨o', i, ho', hi⟩ := h.ofMessage t o x ht ho
      exact ⟨o', i, getElem?_snoc_of_some ho', hi⟩
    · obtain ⟨o', i, ho', hi⟩ := hmessage x rfl ho
      exact ⟨o', i, getElem?_snoc_of_some ho', hi⟩
  · intro t o x ht ho
    rcases getElem?_snoc_cases ht with ht | ⟨rfl, rfl⟩
    · obtain ⟨o', c, ho', hc⟩ := h.ofReceive t o x ht ho
      exact ⟨o', c, getElem?_snoc_of_some ho', hc⟩
    · obtain ⟨o', c, ho', hc⟩ := hreceive x rfl ho
      exact ⟨o', c, getElem?_snoc_of_some ho', hc⟩

theorem Removals.found_lt (h : Removals hist) {o : Op} (ht : hist[t]? = some (o, .found x))
    (ho : removes o = true) : x < hist.length := by
  have hsome : ∃ a, hist[x]? = some a := by
    rw [removes, Bool.or_eq_true] at ho
    rcases ho with ho | ho
    · obtain ⟨_, _, hx, _⟩ := h.ofMessage t o x ht ho
      exact ⟨_, hx⟩
    · obtain ⟨_, _, hx, _⟩ := h.ofReceive t o x ht ho
      exact ⟨_, hx⟩
  obtain ⟨a, ha⟩ := hsome
  exact (List.getElem?_eq_some_iff.mp ha).1

end Growing

structure Chronicle (b : Build) (w : World) (L : QId → List ReqId) : Prop
    extends Apart w.state L where
  clock : w.state.clock = w.hist.length
  sorted : ∀ q, (L q).Pairwise (· < ·)
  posted : ∀ i, ∀ p ∈ L (.posted, i), ∃ o, w.hist[p]? = some (o, .enqueued p) ∧
    postCriteria o = some (w.state.req p).info ∧
    queueIndex b (w.state.req p).info.destRank = .ok i
  unexpected : ∀ i, ∀ u ∈ L (.unexpected, i), ∃ o m, w.hist[u]? = some (o, .enqueued u) ∧
    message o = some m ∧ (∀ c, Matches c (w.state.req u).info ↔ Matches c m) ∧
    queueIndex b m.destRank = .ok i
  receives : ∀ r c, Posts w.hist r c →
    (∃ i, queueIndex b c.destRank = .ok i ∧ r ∈ L (.posted, i)) ∨
      ReceiveGone w.hist w.hist.length r
  messages : ∀ m i, Arrives w.hist m i →
    (∃ j, queueIndex b i.destRank = .ok j ∧ m ∈ L (.unexpected, j)) ∨
      MessageGone w.hist w.hist.length m
  gone : ∀ (t : Nat) (o : Op) (x : ReqId), w.hist[t]? = some (o, .found x) → removes o = true →
    ∀ q, x ∉ L q
  removals : Removals w.hist

theorem init_chronicle (b : Build) : Chronicle b World.init (fun _ => []) where
  toApart := init_apart
  clock := rfl
  sorted _ := List.Pairwise.nil
  posted _ _ hp := by cases hp
  unexpected _ _ hu := by cases hu
  receives r c hr := by
    obtain ⟨o, ret, ho, _⟩ := hr
    simp [World.init] at ho
  messages m i hm := by
    obtain ⟨o, ret, ho, _⟩ := hm
    simp [World.init] at ho
  gone t o x ht := by simp [World.init] at ht
  removals := by constructor <;> simp [World.init]

section Steps
variable {b : Build} {s s' : State} {hist : List (Op × Ret)} {L : QId → List ReqId}

theorem mem_removed_iff (h : Rep s L) {q p : QId} {xs ys : List ReqId} {x y : ReqId}
    (hl : L q = xs ++ x :: ys) :
    y ∈ update L q (xs ++ ys) p ↔ y ∈ L p ∧ y ≠ x := by
  by_cases hp : p = q
  · subst hp
    have hnd := (h.queue p).nodup
    rw [hl, List.nodup_middle, List.nodup_cons] at hnd
    rw [update_self, hl]
    simp only [List.mem_append, List.mem_cons] at hnd ⊢
    constructor
    · intro hy
      refine ⟨by tauto, ?_⟩
      rintro rfl
      exact hnd.1 hy
    · tauto
  · rw [update_of_ne hp]
    constructor
    · intro hy
      refine ⟨hy, ?_⟩
      rintro rfl
      exact hp (h.disjoint p q y hy (by rw [hl]; simp))
    · exact And.left

section
variable (h : Chronicle b ⟨s, hist⟩ L)
include h

theorem Chronicle.removed {q : QId} {xs ys : List ReqId} {x : ReqId}
    {o : Op} (hl : L q = xs ++ x :: ys) (hapart : Apart (tick s') (update L q (xs ++ ys)))
    (hclock : s'.clock = s.clock) (hinfo : ∀ y, (s'.req y).info = (s.req y).info)
    (hmessage : q.1 = .unexpected → removesMessage o = true ∧ removesReceive o = false)
    (hreceive : q.1 = .posted → removesReceive o = true ∧ removesMessage o = false) :
    Chronicle b ⟨tick s', hist ++ [(o, .found x)]⟩ (update L q (xs ++ ys)) := by
  have hmem : ∀ {p y}, y ∈ update L q (xs ++ ys) p ↔ y ∈ L p ∧ y ≠ x :=
    mem_removed_iff h.toRep hl
  have hxq : x ∈ L q := by
    rw [hl]
    simp
  have hlast : (hist ++ [(o, Ret.found x)])[hist.length]? = some (o, .found x) :=
    List.getElem?_concat_length
  have hlen : (hist ++ [(o, Ret.found x)]).length = hist.length + 1 := by simp
  refine ⟨hapart, ?_, ?_, ?_, ?_, ?_, ?_, ?_, ?_⟩
  · have hc := h.clock
    simp only [tick, hclock, hlen] at hc ⊢
    rw [hc]
  · intro p
    by_cases hp : p = q
    · subst hp
      have hs := h.sorted p
      rw [hl] at hs
      rw [update_self]
      exact hs.sublist ((List.Sublist.refl xs).append (List.sublist_cons_self x ys))
    · rw [update_of_ne hp]
      exact h.sorted p
  · intro i p hp
    obtain ⟨o', ho', hc, hi⟩ := h.posted i p (hmem.mp hp).1
    refine ⟨o', getElem?_snoc_of_some ho', ?_, ?_⟩
    · rw [hc]
      simp only [tick, hinfo]
    · simp only [tick, hinfo]
      exact hi
  · intro i u hu
    obtain ⟨o', m, ho', hm, hmm, hi⟩ := h.unexpected i u (hmem.mp hu).1
    refine ⟨o', m, getElem?_snoc_of_some ho', hm, ?_, hi⟩
    intro c
    simp only [tick, hinfo]
    exact hmm c
  · intro r c hr
    obtain ⟨o', ret, ho', hc⟩ := hr
    simp only [hlen]
    rcases getElem?_snoc_cases ho' with ho' | ⟨rfl, he⟩
    · rcases h.receives r c ⟨o', ret, ho', hc⟩ with ⟨i, hi, hri⟩ | hgone
      · by_cases hrx : r = x
        · subst hrx
          have hq := h.disjoint _ _ _ hri hxq
          exact Or.inr (Or.inl ⟨hist.length, Nat.lt_succ_self _, o, hlast,
            (hreceive (by rw [← hq])).1⟩)
        · exact Or.inl ⟨i, hi, hmem.mpr ⟨hri, hrx⟩⟩
      · exact Or.inr (hgone.mono (Nat.le_succ _))
    · cases he
      exact Or.inr (Or.inr ⟨Nat.lt_succ_self _, _, c, x, hlast, hc⟩)
  · intro m i hm
    obtain ⟨o', ret, ho', hi⟩ := hm
    simp only [hlen]
    rcases getElem?_snoc_cases ho' with ho' | ⟨rfl, he⟩
    · rcases h.messages m i ⟨o', ret, ho', hi⟩ with ⟨j, hj, hmj⟩ | hgone
      · by_cases hmx : m = x
        · subst hmx
          have hq := h.disjoint _ _ _ hmj hxq
          exact Or.inr (Or.inl ⟨hist.length, Nat.lt_succ_self _, o, hlast,
            (hmessage (by rw [← hq])).1⟩)
        · exact Or.inl ⟨j, hj, hmem.mpr ⟨hmj, hmx⟩⟩
      · exact Or.inr (hgone.mono (Nat.le_succ _))
    · cases he
      exact Or.inr (Or.inr ⟨Nat.lt_succ_self _, _, i, x, hlast, hi⟩)
  · intro t o' y ht ho' p hp
    rcases getElem?_snoc_cases ht with ht | ⟨_, he⟩
    · exact h.gone t o' y ht ho' p (hmem.mp hp).1
    · cases he
      exact (hmem.mp hp).2 rfl
  · obtain ⟨k, i⟩ := q
    refine h.removals.snoc ?_ ?_ ?_
    · intro y hy _ t o' ht
      cases hy
      by_contra ho'
      exact h.gone t o' x ht (by simpa using ho') _ hxq
    · intro y hy ho
      cases hy
      cases k with
      | posted =>
        rw [(hreceive rfl).2] at ho
        cases ho
      | unexpected =>
        obtain ⟨o', m, ho', hm, _⟩ := h.unexpected i x hxq
        exact ⟨o', m, ho', hm⟩
    · intro y hy ho
      cases hy
      cases k with
      | posted =>
        obtain ⟨o', ho', hc, _⟩ := h.posted i x hxq
        exact ⟨o', _, ho', hc⟩
      | unexpected =>
        rw [(hmessage rfl).2] at ho
        cases ho

theorem Chronicle.enqueued {k : Kind} {i : Nat} {o : Op} {req : Request}
    (hapart : Apart (tick (enqueue s (k, i) req))
      (update L (k, i) (L (k, i) ++ [s.clock])))
    (hnew : k = .posted ∧ postCriteria o = some req.info ∧ message o = none ∧
        queueIndex b req.info.destRank = .ok i ∨
      k = .unexpected ∧ postCriteria o = none ∧ ∃ m, message o = some m ∧
        (∀ c, Matches c req.info ↔ Matches c m) ∧ queueIndex b m.destRank = .ok i) :
    Chronicle b ⟨tick (enqueue s (k, i) req), hist ++ [(o, .enqueued s.clock)]⟩
      (update L (k, i) (L (k, i) ++ [s.clock])) := by
  have hclock : s.clock = hist.length := h.clock
  have hlen : (hist ++ [(o, Ret.enqueued s.clock)]).length = hist.length + 1 := by simp
  have hlast : (hist ++ [(o, Ret.enqueued s.clock)])[s.clock]? = some (o, .enqueued s.clock) := by
    rw [hclock]
    exact List.getElem?_concat_length
  have hself : (tick (enqueue s (k, i) req)).req s.clock = req := update_self _ _ _
  have hold : ∀ q x, x ∈ L q → (tick (enqueue s (k, i) req)).req x = s.req x :=
    fun q x hx => update_of_ne (Nat.ne_of_lt (h.old q x hx)) _ _
  have hkeep : ∀ q x, x ∈ L q → x ∈ update L (k, i) (L (k, i) ++ [s.clock]) q := by
    intro q x hx
    by_cases hq : q = (k, i)
    · subst hq
      rw [update_self]
      exact List.mem_append_left _ hx
    · rwa [update_of_ne hq]
  have hin : s.clock ∈ update L (k, i) (L (k, i) ++ [s.clock]) (k, i) := by simp
  refine ⟨hapart, ?_, ?_, ?_, ?_, ?_, ?_, ?_, ?_⟩
  · simp [tick, enqueue, hclock]
  · intro q
    by_cases hq : q = (k, i)
    · subst hq
      rw [update_self, List.pairwise_append]
      refine ⟨h.sorted _, List.pairwise_singleton _ _, ?_⟩
      intro x hx y hy
      rw [List.mem_singleton.mp hy]
      exact h.old _ x hx
    · rw [update_of_ne hq]
      exact h.sorted q
  · intro j p hp
    rcases mem_enqueued hp with hp | ⟨hq, rfl⟩
    · obtain ⟨o', ho', hc, hi⟩ := h.posted j p hp
      rw [hold _ p hp]
      exact ⟨o', getElem?_snoc_of_some ho', hc, hi⟩
    · cases hq
      rw [hself]
      rcases hnew with ⟨_, hc, _, hi⟩ | ⟨hk, _⟩
      · exact ⟨o, hlast, hc, hi⟩
      · cases hk
  · intro j u hu
    rcases mem_enqueued hu with hu | ⟨hq, rfl⟩
    · obtain ⟨o', m, ho', hm, hmm, hi⟩ := h.unexpected j u hu
      rw [hold _ u hu]
      exact ⟨o', m, getElem?_snoc_of_some ho', hm, hmm, hi⟩
    · cases hq
      rw [hself]
      rcases hnew with ⟨hk, _⟩ | ⟨_, _, m, hm, hmm, hi⟩
      · cases hk
      · exact ⟨o, m, hlast, hm, hmm, hi⟩
  · intro r c hr
    obtain ⟨o', ret, ho', hc⟩ := hr
    simp only [hlen]
    rcases getElem?_snoc_cases ho' with ho' | ⟨hrn, he⟩
    · rcases h.receives r c ⟨o', ret, ho', hc⟩ with ⟨j, hj, hrj⟩ | hgone
      · exact Or.inl ⟨j, hj, hkeep _ _ hrj⟩
      · exact Or.inr (hgone.mono (Nat.le_succ _))
    · cases he
      rcases hnew with ⟨rfl, hc', _, hi⟩ | ⟨_, hc', _⟩
      · rw [hc'] at hc
        cases hc
        rw [hrn, ← hclock]
        exact Or.inl ⟨i, hi, hin⟩
      · rw [hc'] at hc
        cases hc
  · intro m im hm
    obtain ⟨o', ret, ho', him⟩ := hm
    simp only [hlen]
    rcases getElem?_snoc_cases ho' with ho' | ⟨hmn, he⟩
    · rcases h.messages m im ⟨o', ret, ho', him⟩ with ⟨j, hj, hmj⟩ | hgone
      · exact Or.inl ⟨j, hj, hkeep _ _ hmj⟩
      · exact Or.inr (hgone.mono (Nat.le_succ _))
    · cases he
      rcases hnew with ⟨_, _, hm', _⟩ | ⟨rfl, _, m', hm', _, hi⟩
      · rw [hm'] at him
        cases him
      · rw [hm'] at him
        cases him
        rw [hmn, ← hclock]
        exact Or.inl ⟨i, hi, hin⟩
  · intro t o' x ht ho' q hx
    rcases getElem?_snoc_cases ht with ht | ⟨_, he⟩
    · rcases mem_enqueued hx with hx | ⟨_, rfl⟩
      · exact h.gone t o' x ht ho' q hx
      · have hlt := h.removals.found_lt ht ho'
        rw [hclock] at hlt
        exact absurd hlt (Nat.lt_irrefl _)
    · cases he
  · exact h.removals.snoc (fun _ hx => by cases hx) (fun _ hx => by cases hx)
      (fun _ hx => by cases hx)

theorem Chronicle.unchanged {o : Op} {ret : Ret} (hmessage : message o = none) (hpost : postCriteria o = none)
    (hret : ∀ x, ret = .found x → removes o = false) :
    Chronicle b ⟨tick s, hist ++ [(o, ret)]⟩ L := by
  have hlen : (hist ++ [(o, ret)]).length = hist.length + 1 := by simp
  refine ⟨h.toApart.unchanged, ?_, h.sorted, ?_, ?_, ?_, ?_, ?_, ?_⟩
  · have hc := h.clock
    simp only [tick, hlen] at hc ⊢
    rw [hc]
  · intro i p hp
    obtain ⟨o', ho', hc, hi⟩ := h.posted i p hp
    exact ⟨o', getElem?_snoc_of_some ho', hc, hi⟩
  · intro i u hu
    obtain ⟨o', m, ho', hm⟩ := h.unexpected i u hu
    exact ⟨o', m, getElem?_snoc_of_some ho', hm⟩
  · intro r c hr
    obtain ⟨o', ret', ho', hc⟩ := hr
    simp only [hlen]
    rcases getElem?_snoc_cases ho' with ho' | ⟨_, he⟩
    · exact (h.receives r c ⟨o', ret', ho', hc⟩).imp id (fun hg => hg.mono (Nat.le_succ _))
    · cases he
      rw [hpost] at hc
      cases hc
  · intro m i hm
    obtain ⟨o', ret', ho', hi⟩ := hm
    simp only [hlen]
    rcases getElem?_snoc_cases ho' with ho' | ⟨_, he⟩
    · exact (h.messages m i ⟨o', ret', ho', hi⟩).imp id (fun hg => hg.mono (Nat.le_succ _))
    · cases he
      rw [hmessage] at hi
      cases hi
  · intro t o' x ht ho' q
    rcases getElem?_snoc_cases ht with ht | ⟨_, he⟩
    · exact h.gone t o' x ht ho' q
    · cases he
      rw [hret x rfl] at ho'
      cases ho'
  · refine h.removals.snoc ?_ ?_ ?_
    · intro x hx ho
      rw [hret x hx] at ho
      cases ho
    · intro x hx ho
      have hr := hret x hx
      simp [removes, ho] at hr
    · intro x hx ho
      have hr := hret x hx
      simp [removes, ho] at hr

end

theorem Effect.chronicle (hb : b.fg = true) {L' : QId → List ReqId} {o : Op} {ret : Ret}
    (h : Chronicle b ⟨s, hist⟩ L) (he : Effect b s L o s' ret L') :
    Chronicle b ⟨tick s', hist ++ [(o, ret)]⟩ L' := by
  have hapart := he.apart hb h.toApart
  cases he with
  | received hi hu =>
    exact h.removed hu.split hapart rfl (fun y => (setComm_info _ _ _ y).1)
      (fun _ => ⟨rfl, rfl⟩) (fun hk => by cases hk)
  | probed hi hu =>
    exact h.removed hu.split hapart rfl (fun y => (setComm_info _ _ _ y).1)
      (fun _ => ⟨rfl, rfl⟩) (fun hk => by cases hk)
  | posted hi hnone => exact h.enqueued hapart (Or.inl ⟨rfl, rfl, rfl, hi⟩)
  | delivered hi hsent hp =>
    exact h.removed hp.split hapart rfl (fun _ => rfl) (fun hk => by cases hk)
      (fun _ => ⟨rfl, rfl⟩)
  | stored hi hsent hnone =>
    exact h.enqueued hapart
      (Or.inr ⟨rfl, rfl, _, rfl, fun c => matches_stored hsent _ c, hi⟩)
  | sendCancelled hl =>
    exact h.removed hl hapart rfl (fun _ => rfl) (fun _ => ⟨rfl, rfl⟩) (fun hk => by cases hk)
  | recvCancelled hl =>
    exact h.removed hl hapart rfl (fun _ => rfl) (fun hk => by cases hk) (fun _ => ⟨rfl, rfl⟩)
  | looked => exact h.unchanged rfl rfl (fun _ _ => rfl)
  | missed ho =>
    refine h.unchanged ?_ ?_ (fun _ hx => by cases hx)
    · cases o with
      | arrive a c d e f => exact absurd rfl (ho.2 a c d e f)
      | _ => rfl
    · cases o with
      | post a c d e f g => exact absurd rfl (ho.1 a c d e f g)
      | _ => rfl

end Steps

theorem removesMessage_of_criteria {o : Op} {c : MessageMatch} (h : criteria o = some c) :
    removesMessage o = true := by
  cases o <;> first | rfl | cases h

theorem removesReceive_of_message {o : Op} {i : MessageMatch} (h : message o = some i) :
    removesReceive o = true := by
  cases o <;> first | rfl | cases h

section Order
variable {hist : List (Op × Ret)} {e : Op × Ret}

theorem PairedAt.lt (h : Removals hist) {t r m : Nat} (hp : PairedAt hist t r m) :
    r < hist.length ∧ m < hist.length := by
  cases hp with
  | taken ho hc =>
    refine ⟨(List.getElem?_eq_some_iff.mp ho).1, h.found_lt ho ?_⟩
    simp [removes, removesMessage_of_criteria hc]
  | delivered ho hi =>
    refine ⟨h.found_lt ho ?_, (List.getElem?_eq_some_iff.mp ho).1⟩
    simp [removes, removesReceive_of_message hi]

theorem Arrives.old {m : Nat} {i : MessageMatch} (h : Arrives (hist ++ [e]) m i)
    (hm : m < hist.length) : Arrives hist m i := by
  obtain ⟨o, ret, ho, hi⟩ := h
  exact ⟨o, ret, getElem?_snoc_old ho hm, hi⟩

variable {c : MessageMatch}

theorem Posts.old {r : Nat} (h : Posts (hist ++ [e]) r c) (hr : r < hist.length) : Posts hist r c := by
  obtain ⟨o, ret, ho, hc⟩ := h
  exact ⟨o, ret, getElem?_snoc_old ho hr, hc⟩

theorem Asks.old {r : Nat} (h : Asks (hist ++ [e]) r c) (hr : r < hist.length) : Asks hist r c := by
  obtain ⟨o, ret, ho, hc⟩ := h
  exact ⟨o, ret, getElem?_snoc_old ho hr, hc⟩

theorem Asks.last (h : Asks (hist ++ [e]) hist.length c) : criteria e.1 = some c := by
  obtain ⟨o, ret, ho, hc⟩ := h
  rw [List.getElem?_concat_length] at ho
  cases ho
  exact hc

theorem Arrives.last {i : MessageMatch} (h : Arrives (hist ++ [e]) hist.length i) : message e.1 = some i := by
  obtain ⟨o, ret, ho, hi⟩ := h
  rw [List.getElem?_concat_length] at ho
  cases ho
  exact hi

end Order

theorem mem_before {xs ys : List ReqId} {x y : ReqId} (h : (xs ++ x :: ys).Pairwise (· < ·))
    (hy : y ∈ xs ++ x :: ys) (hlt : y < x) : y ∈ xs := by
  rw [List.pairwise_append, List.pairwise_cons] at h
  rcases List.mem_append.mp hy with hy | hy
  · exact hy
  · rcases List.mem_cons.mp hy with rfl | hy
    · exact absurd hlt (Nat.lt_irrefl _)
    · exact absurd (h.2.1.1 y hy) (Nat.lt_asymm hlt)

section NewPair
variable {b : Build} {s s' : State} {hist : List (Op × Ret)} {L L' : QId → List ReqId}

variable {i : Nat} {info c : MessageMatch}

theorem Chronicle.message_waits (h : Chronicle b ⟨s, hist⟩ L) {m : Nat}
    (hm : Arrives hist m info) (hc : Matches c info) (hi : queueIndex b c.destRank = .ok i) :
    (m ∈ L (.unexpected, i) ∧ Matches c (s.req m).info) ∨ MessageGone hist hist.length m := by
  rcases h.messages m info hm with ⟨j, hj, hmj⟩ | hgone
  · left
    rw [hc.2.1, hj] at hi
    cases hi
    obtain ⟨o, info', ho, hinfo', hiff, _⟩ := h.unexpected i m hmj
    obtain ⟨o₂, ret₂, ho₂, hinfo⟩ := hm
    rw [ho] at ho₂
    cases ho₂
    rw [hinfo'] at hinfo
    cases hinfo
    exact ⟨hmj, (hiff c).mpr hc⟩
  · exact Or.inr hgone

theorem Chronicle.receive_waits (h : Chronicle b ⟨s, hist⟩ L) {r : Nat}
    (hr : Posts hist r c) (hc : Matches c info) (hi : queueIndex b info.destRank = .ok i) :
    (r ∈ L (.posted, i) ∧ (s.req r).info = c) ∨ ReceiveGone hist hist.length r := by
  rcases h.receives r c hr with ⟨j, hj, hrj⟩ | hgone
  · left
    rw [← hc.2.1, hj] at hi
    cases hi
    obtain ⟨o, ho, hinfo, _⟩ := h.posted i r hrj
    obtain ⟨o₂, ret₂, ho₂, hc₂⟩ := hr
    rw [ho] at ho₂
    cases ho₂
    rw [hinfo] at hc₂
    exact ⟨hrj, Option.some.inj hc₂⟩
  · exact Or.inr hgone

theorem Chronicle.oldest_message (hb : b.fg = true) (h : Chronicle b ⟨s, hist⟩ L)
    {source me : BitVec 32} {tag : TagVal} {contextId : BitVec 16} {u m : Nat}
    {xs ys : List ReqId} (hi : queueIndex b me = .ok i)
    (hu : FirstAt (wants b s source tag contextId me) (L (.unexpected, i)) xs u ys)
    (hm : Arrives hist m info) (hlt : m < u) (hc : Matches ⟨tag, source, contextId, me⟩ info) :
    MessageGone hist hist.length m := by
  rcases h.message_waits hm hc hi with ⟨hmem, hmatch⟩ | hgone
  · have hs := h.sorted (.unexpected, i)
    rw [hu.split] at hs hmem
    have hfalse := hu.before m (mem_before hs hmem hlt)
    rw [(wants_iff hb s source tag contextId me m).mpr hmatch] at hfalse
    cases hfalse
  · exact hgone

theorem Chronicle.no_receive (h : Chronicle b ⟨s, hist⟩ L) {u r : Nat}
    (hu : u ∈ L (.unexpected, i)) (hinfo : Arrives hist u info) (hr : Posts hist r c)
    (hc : Matches c info) : ReceiveGone hist hist.length r := by
  obtain ⟨o, info', ho, hinfo', hiff, hi⟩ := h.unexpected i u hu
  obtain ⟨o₂, ret₂, ho₂, hi₂⟩ := hinfo
  rw [ho] at ho₂
  cases ho₂
  rw [hinfo'] at hi₂
  cases hi₂
  rcases h.receive_waits hr hc hi with ⟨hmem, hreq⟩ | hgone
  · refine absurd ?_ (h.apart i r hmem u hu)
    show Matches (s.req r).info (s.req u).info
    rw [hreq]
    exact (hiff c).mpr hc
  · exact hgone

theorem Chronicle.no_message (h : Chronicle b ⟨s, hist⟩ L) {p m : Nat}
    (hp : p ∈ L (.posted, i)) (hpc : Asks hist p c) (hm : Arrives hist m info)
    (hc : Matches c info) : MessageGone hist hist.length m := by
  obtain ⟨o, ho, hcrit, hi⟩ := h.posted i p hp
  obtain ⟨o₂, ret₂, ho₂, hc₂⟩ := hpc
  rw [ho] at ho₂
  cases ho₂
  have hinfo : (s.req p).info = c := by
    cases o with
    | post source tag contextId me comm moribund =>
      exact (Option.some.inj hcrit).symm.trans (Option.some.inj hc₂)
    | _ => cases hcrit
  have hdest : queueIndex b c.destRank = .ok i := by
    rw [← hinfo]
    exact hi
  rcases h.message_waits hm hc hdest with ⟨hmem, hmatch⟩ | hgone
  · refine absurd ?_ (h.apart i p hp m hmem)
    show Matches (s.req p).info (s.req m).info
    rw [hinfo]
    exact hmatch
  · exact hgone

theorem Chronicle.oldest_receive (hb : b.fg = true) (h : Chronicle b ⟨s, hist⟩ L)
    {sent : MessageMatch} {flag : Errflag} {p r : Nat} {xs ys : List ReqId}
    (hi : queueIndex b sent.destRank = .ok i) (hsent : NoErrorBits sent.tag)
    (hp : FirstAt (takes b s (onWire sent flag)) (L (.posted, i)) xs p ys)
    (hr : Posts hist r c) (hlt : r < p) (hc : Matches c (onWire sent flag)) :
    ReceiveGone hist hist.length r := by
  rcases h.receive_waits hr hc hi with ⟨hmem, hreq⟩ | hgone
  · have hmask := h.mask i r hmem
    have hs := h.sorted (.posted, i)
    rw [hp.split] at hs hmem
    have hfalse := hp.before r (mem_before hs hmem hlt)
    have hmatch : Matches (s.req r).info (onWire sent flag) := by
      rw [hreq]
      exact hc
    rw [(takes_iff hb s hsent flag hmask).mpr hmatch] at hfalse
    cases hfalse
  · exact hgone

theorem Chronicle.lt_length (h : Chronicle b ⟨s, hist⟩ L) {q : QId} {x : ReqId} (hx : x ∈ L q) :
    x < hist.length := by
  have hclock : s.clock = hist.length := h.clock
  rw [← hclock]
  exact h.old q x hx

theorem Effect.messagesInOrder (hb : b.fg = true) {o : Op} {ret : Ret}
    (h : Chronicle b ⟨s, hist⟩ L) (he : Effect b s L o s' ret L') (hord : MessagesInOrder hist) :
    MessagesInOrder (hist ++ [(o, ret)]) := by
  intro t r m₁ m₂ c i₁ i₂ h₁ h₂ hlt hr hc₁ hc₂ hpair
  rcases hpair.cases_snoc with hold | ⟨rfl, rfl, hret, -⟩ | ⟨rfl, rfl, hret, i', hi'⟩
  · obtain ⟨hrl, hml⟩ := hold.lt h.removals
    exact (hord t r m₁ m₂ c i₁ i₂ (h₁.old (Nat.lt_trans hlt hml)) (h₂.old hml) hlt (hr.old hrl) hc₁ hc₂
      hold).mono (Nat.le_refl _)
  · -- the last call takes `m₂` from the unexpected queue
    have hcrit := hr.last
    cases he with
    | received hi hu =>
      cases hret
      cases hcrit
      have hml := h.lt_length hu.mem
      exact (h.oldest_message hb hi hu (h₁.old (Nat.lt_trans hlt hml)) hlt hc₁).mono (Nat.le_refl _)
    | probed hi hu =>
      cases hret
      cases hcrit
      have hml := h.lt_length hu.mem
      exact (h.oldest_message hb hi hu (h₁.old (Nat.lt_trans hlt hml)) hlt hc₁).mono (Nat.le_refl _)
    | posted => cases hret
    | missed => cases hret
    | _ => cases hcrit
  · -- the last call is the arrival of `m₂`, which takes the posted receive `r`
    cases he with
    | delivered hi hsent hp =>
      cases hret
      have hrl := h.lt_length hp.mem
      exact (h.no_message hp.mem (hr.old hrl) (h₁.old hlt) hc₁).mono (Nat.le_refl _)
    | stored => cases hret
    | missed => cases hret
    | _ => cases hi'

theorem Effect.receivesInOrder (hb : b.fg = true) {o : Op} {ret : Ret}
    (h : Chronicle b ⟨s, hist⟩ L) (he : Effect b s L o s' ret L') (hord : ReceivesInOrder hist) :
    ReceivesInOrder (hist ++ [(o, ret)]) := by
  intro t r₁ r₂ m c₁ c₂ i h₁ h₂ hlt hm hc₁ hc₂ hpair
  rcases hpair.cases_snoc with hold | ⟨rfl, rfl, hret, c', hc'⟩ | ⟨rfl, rfl, hret, -⟩
  · obtain ⟨hrl, hml⟩ := hold.lt h.removals
    exact (hord t r₁ r₂ m c₁ c₂ i (h₁.old (Nat.lt_trans hlt hrl)) (h₂.old hrl) hlt (hm.old hml) hc₁ hc₂
      hold).mono (Nat.le_refl _)
  · -- the last call is `r₂` and takes `m` from the unexpected queue
    have htaken : ∃ j, m ∈ L (.unexpected, j) := by
      cases he with
      | received hi hu =>
        cases hret
        exact ⟨_, hu.mem⟩
      | probed hi hu =>
        cases hret
        exact ⟨_, hu.mem⟩
      | posted => cases hret
      | missed => cases hret
      | _ => cases hc'
    obtain ⟨j, hj⟩ := htaken
    exact (h.no_receive hj (hm.old (h.lt_length hj)) (h₁.old hlt) hc₁).mono (Nat.le_refl _)
  · -- the last call is the arrival of `m`, which takes the posted receive `r₂`
    have hmsg := hm.last
    cases he with
    | delivered hi hsent hp =>
      cases hret
      cases hmsg
      have hrl := h.lt_length hp.mem
      exact (h.oldest_receive hb hi hsent hp (h₁.old (Nat.lt_trans hlt hrl)) hlt hc₁).mono (Nat.le_refl _)
    | stored => cases hret
    | missed => cases hret
    | _ => cases hmsg

end NewPair

structure Ordered (b : Build) (w : World) : Prop where
  chronicle : ∃ L, Chronicle b w L
  messages : MessagesInOrder w.hist
  receives : ReceivesInOrder w.hist

theorem init_ordered (b : Build) : Ordered b World.init where
  chronicle := ⟨_, init_chronicle b⟩
  messages := by
    intro t r m₁ m₂ c i₁ i₂ h₁
    obtain ⟨o, ret, ho, _⟩ := h₁
    simp [World.init] at ho
  receives := by
    intro t r₁ r₂ m c₁ c₂ i h₁
    obtain ⟨o, ret, ho, _⟩ := h₁
    simp [World.init] at ho

theorem step_ordered {b : Build} (hb : b.fg = true) {w w' : World} {o : Op} (h : Ordered b w)
    (ho : Quiet o) (hs : step b w o = .ok w') : Ordered b w' := by
  obtain ⟨L, hL⟩ := h.chronicle
  obtain ⟨s', ret, hc, rfl⟩ := step_cases hs
  obtain ⟨L', he⟩ := call_effect hb hL.toRep ho hc
  exact ⟨⟨L', Effect.chronicle hb hL he⟩, Effect.messagesInOrder hb hL he h.messages,
    Effect.receivesInOrder hb hL he h.receives⟩

section Unique
variable {hist : List (Op × Ret)} {t t' r r' m m' : Nat}

theorem PairedAt.receive_unique (h : Removals hist) (hp : PairedAt hist t r m)
    (hp' : PairedAt hist t' r' m) : r = r' := by
  cases hp with
  | taken ho hc =>
    have hrem := removesMessage_of_criteria hc
    cases hp' with
    | taken ho' hc' =>
      exact h.once _ _ _ _ _ ho ho' (by simp [removes, hrem])
        (by simp [removes, removesMessage_of_criteria hc'])
    | delivered ho' hi' =>
      obtain ⟨_, _, henq, _⟩ := h.ofMessage _ _ _ ho hrem
      rw [ho'] at henq
      cases henq
  | delivered ho hi =>
    cases hp' with
    | taken ho' hc' =>
      obtain ⟨_, _, henq, _⟩ := h.ofMessage _ _ _ ho' (removesMessage_of_criteria hc')
      rw [ho] at henq
      cases henq
    | delivered ho' hi' =>
      rw [ho] at ho'
      cases ho'
      rfl

theorem PairedAt.message_unique (h : Removals hist) (hp : PairedAt hist t r m)
    (hp' : PairedAt hist t' r m') : m = m' := by
  cases hp with
  | taken ho hc =>
    cases hp' with
    | taken ho' hc' =>
      rw [ho] at ho'
      cases ho'
      rfl
    | delivered ho' hi' =>
      obtain ⟨_, _, henq, _⟩ := h.ofReceive _ _ _ ho' (removesReceive_of_message hi')
      rw [ho] at henq
      cases henq
  | delivered ho hi =>
    have hrem := removesReceive_of_message hi
    cases hp' with
    | taken ho' hc' =>
      obtain ⟨_, _, henq, _⟩ := h.ofReceive _ _ _ ho hrem
      rw [ho'] at henq
      cases henq
    | delivered ho' hi' =>
      exact h.once _ _ _ _ _ ho ho' (by simp [removes, hrem])
        (by simp [removes, removesReceive_of_message hi'])

end Unique

/-- Messages do not overtake each other, receives do not either, and the pairs are one to one.
The order of messages holds across sources, too. -/
theorem non_overtaking (startrank nfg : Nat) (ops : List Op) (hops : ∀ o ∈ ops, Quiet o)
    (w : World) (hrun : run (step (.fineGrain startrank nfg)) World.init ops = .ok w) :
    MessagesInOrder w.hist ∧ ReceivesInOrder w.hist ∧
      (∀ t t' r r' m, PairedAt w.hist t r m → PairedAt w.hist t' r' m → r = r') ∧
      ∀ t t' r m m', PairedAt w.hist t r m → PairedAt w.hist t' r m' → m = m' := by
  have hinv : Ordered (.fineGrain startrank nfg) w := by
    refine run_invariant (P := fun _ o => Quiet o) ?_ (init_ordered _) (Along.of_mem hops _) hrun
    intro w o w' hI ho hs
    exact step_ordered rfl hI ho hs
  obtain ⟨L, hL⟩ := hinv.chronicle
  refine ⟨hinv.messages, hinv.receives, ?_, ?_⟩
  · intro t t' r r' m hp hp'
    exact hp.receive_unique hL.removals hp'
  · intro t t' r m m' hp hp'
    exact hp.message_unique hL.removals hp'

theorem non_overtaking_two_messages :
    ∃ w, run (step (.fineGrain 0 1)) World.init
        [.arrive ⟨5, 3, 16, 0⟩ .none 7 (fun _ => false) false,
          .arrive ⟨5, 3, 16, 0⟩ .other 8 (fun _ => false) false,
          .post anySource 5 16 0 0 false, .matchedProbe 3 anyTag 16 0 0] = .ok w ∧
      w.hist.map Prod.snd = [.enqueued 0, .enqueued 1, .found 0, .found 1] ∧
      MessagesInOrder w.hist ∧ ReceivesInOrder w.hist := by
  have hseen : (run (step (.fineGrain 0 1)) World.init
      [.arrive ⟨5, 3, 16, 0⟩ .none 7 (fun _ => false) false,
        .arrive ⟨5, 3, 16, 0⟩ .other 8 (fun _ => false) false,
        .post anySource 5 16 0 0 false, .matchedProbe 3 anyTag 16 0 0]).toOption.map
      (fun w => w.hist.map Prod.snd) =
        some [.enqueued 0, .enqueued 1, .found 0, .found 1] := by decide +kernel
  obtain ⟨w, hw, hret⟩ := ok_of_observed hseen
  have hquiet : ∀ o ∈ [Op.arrive ⟨5, 3, 16, 0⟩ .none 7 (fun _ => false) false,
      .arrive ⟨5, 3, 16, 0⟩ .other 8 (fun _ => false) false,
      .post anySource 5 16 0 0 false, .matchedProbe 3 anyTag 16 0 0], Quiet o := by
    intro o ho
    simp only [List.mem_cons, List.not_mem_nil, or_false] at ho
    rcases ho with rfl | rfl | rfl | rfl
    · exact ⟨by decide, rfl⟩
    · exact ⟨by decide, rfl⟩
    · rfl
    · trivial
  have hall := non_overtaking 0 1 _ hquiet w hw
  exact ⟨w, hw, hret, hall.1, hall.2.1⟩

end FgMpi.Recvq.Overtaking
