import FgMpi.Recvq.Accounting

/-! `MPIDI_CH3U_Clean_recvq`. -/

namespace FgMpi.Recvq.Revocation
open Machine.Checked Machine.LinkedQueue Machine.Runs
open Recvq.Queues Recvq.Lists Recvq.Accounting

inductive ErrorClass
  | procFailed
  | revoked
deriving Repr, DecidableEq

/-- `dequeue_and_set_error` sets the error and completes the request it unlinks. -/
def sweepLoopCompletes (b : Build) (q : QId) (p : Request → Bool) (error : ErrorClass) :
    Nat → State → Option ReqId → Option ReqId → List (ReqId × ErrorClass)
  | 0, _, _, _ => []
  | _ + 1, _, _, none => []
  | n + 1, s, prev, some x =>
    if p (s.req x) then
      (x, error) ::
        sweepLoopCompletes b q p error n (dequeueAndSetError b s q prev x) prev (s.next x)
    else sweepLoopCompletes b q p error n s (some x) (s.next x)

def sweepCompletes (b : Build) (p : Request → Bool) (error : ErrorClass) (s : State) (q : QId) :
    List (ReqId × ErrorClass) :=
  sweepLoopCompletes b q p error (s.clock + 1) s none (s.queue q).head

def sweepsComplete (b : Build) (kind : Kind) (p : Request → Bool) (error : ErrorClass) :
    List Nat → State → List (ReqId × ErrorClass)
  | [], _ => []
  | i :: is, s =>
    sweepCompletes b p error s (kind, i) ++ sweepsComplete b kind p error is (sweep b p s (kind, i))

/-- The requests `MPIDI_CH3U_Clean_recvq` completes, one after the other. -/
def cleanCompletes (b : Build) (c : CommInfo) (s : State) : List (ReqId × ErrorClass) :=
  sweepsComplete b .unexpected (cleans c) .revoked (List.range b.numQueues) s ++
    sweepsComplete b .posted (cleans c) .revoked (List.range b.numQueues)
      (sweepAll b .unexpected (cleans c) s)

section Sweeps
variable {b : Build} {s : State} {L : QId → List ReqId}

theorem sweepLoopCompletes_eq (h : Rep s L) (q : QId) (p : Request → Bool) (error : ErrorClass)
    {n : Nat} {xs ys : List ReqId} {cur : Option ReqId} (hl : L q = xs ++ ys)
    (hc : Chain s.next cur ys) (hn : ys.length < n) :
    sweepLoopCompletes b q p error n s xs.getLast? cur =
      (ys.filter (fun x => p (s.req x))).map (fun x => (x, error)) := by
  induction ys generalizing s L xs cur n with
  | nil =>
    obtain rfl := hc
    cases n with
    | zero => exact absurd hn (Nat.not_lt_zero _)
    | succ n => rfl
  | cons x ys ih =>
    obtain ⟨rfl, hys⟩ := hc
    cases n with
    | zero => exact absurd hn (Nat.not_lt_zero _)
    | succ n =>
      rw [sweepLoopCompletes]
      by_cases hx : p (s.req x) = true
      · rw [if_pos hx, List.filter_cons_of_pos (by simp [hx]), List.map_cons]
        have hrec := ih (dequeueAndSetError_rep (b := b) h hl) (Function.update_self _ _ _)
          (dequeueAndSetError_chain h hl) (Nat.lt_of_succ_lt_succ hn)
        rw [dequeueAndSetError_req] at hrec
        rw [hrec]
      · rw [if_neg hx, List.filter_cons_of_neg (by simp [hx])]
        have hl' : L q = (xs ++ [x]) ++ ys := by
          rw [hl]
          simp
        have hlast : (xs ++ [x]).getLast? = some x := by simp
        have hrec := ih h hl' hys (Nat.lt_of_succ_lt_succ hn)
        rw [hlast] at hrec
        exact hrec

theorem sweepCompletes_eq (h : Rep s L) (q : QId) (p : Request → Bool) (error : ErrorClass) :
    sweepCompletes b p error s q =
      ((L q).filter (fun x => p (s.req x))).map (fun x => (x, error)) :=
  sweepLoopCompletes_eq h q p error (List.nil_append (L q)).symm (h.queue q).chain
    (h.length_lt q)

def sweptLists (k : Kind) (is : List Nat) (gone : ReqId → Bool) (L : QId → List ReqId) :
    QId → List ReqId :=
  fun q => if q.1 = k ∧ q.2 ∈ is then (L q).filter (fun x => !gone x) else L q

variable {is : List Nat}

theorem sweptLists_cons {k : Kind} {i : Nat} {gone : ReqId → Bool} (hi : i ∉ is) :
    sweptLists k is gone
        (Function.update L (k, i) ((L (k, i)).filter (fun x => !gone x))) =
      sweptLists k (i :: is) gone L := by
  funext q
  obtain ⟨k', j⟩ := q
  by_cases hq : (k', j) = (k, i)
  · cases hq
    simp [sweptLists, hi]
  · have hj : k' = k → j ≠ i := by
      intro hk hj
      exact hq (by rw [hk, hj])
    simp only [sweptLists, Function.update_of_ne hq, List.mem_cons]
    by_cases hk : k' = k
    · simp [hk, hj hk]
    · simp [hk]

structure SweptAll (k : Kind) (is : List Nat) (p : Request → Bool) (s : State)
    (L : QId → List ReqId) (s' : State) : Prop where
  rep : Rep s' (sweptLists k is (fun x => p (s.req x)) L)
  req : s'.req = s.req

theorem sweeps_swept (h : Rep s L) (k : Kind) (p : Request → Bool) (his : is.Nodup) :
    SweptAll k is p s L (is.foldl (fun s i => sweep b p s (k, i)) s) := by
  induction is generalizing s L with
  | nil =>
    refine ⟨?_, rfl⟩
    have hsame : sweptLists k [] (fun x => p (s.req x)) L = L := by
      funext q
      simp [sweptLists]
    rw [hsame]
    exact h
  | cons i is ih =>
    rw [List.nodup_cons] at his
    have hfirst := sweep_swept (b := b) h (k, i) p
    have hrest := ih hfirst.rep his.2
    rw [List.foldl_cons]
    refine ⟨?_, hrest.req.trans hfirst.req⟩
    have hrep := hrest.rep
    rw [hfirst.req, sweptLists_cons his.1] at hrep
    exact hrep

theorem sweepsComplete_eq (h : Rep s L) (k : Kind) (p : Request → Bool) (error : ErrorClass) (his : is.Nodup) :
    sweepsComplete b k p error is s =
      is.flatMap (fun i =>
        ((L (k, i)).filter (fun x => p (s.req x))).map (fun x => (x, error))) := by
  induction is generalizing s L with
  | nil => rfl
  | cons i is ih =>
    rw [List.nodup_cons] at his
    have hfirst := sweep_swept (b := b) h (k, i) p
    rw [sweepsComplete, sweepCompletes_eq h, ih hfirst.rep his.2, List.flatMap_cons, hfirst.req]
    congr 1
    -- the queues that are still to come are as they were
    apply List.flatMap_congr
    intro j hj
    have hne : ((k, j) : QId) ≠ (k, i) := by
      rintro ⟨⟩
      exact his.1 hj
    rw [Function.update_of_ne hne]

end Sweeps

/-- A context id is the prefix of a communicator with the three bits of
`MPID_CONTEXT_SUFFIX_MASK` and `MPID_CONTEXT_SUBCOMM_MASK` behind it: 0 and 1 are its own
point-to-point and collective context, 2 and 3 those of `node_comm`, 4 and 5 those of
`node_roots_comm`, 6 and 7 (`MPID_CONTEXT_COLOCATED_OFFSET`) those of
`osproc_colocated_comm`. -/
def contextPrefix (contextId : BitVec 16) : Nat := contextId.toNat / 8

def contextOffset (contextId : BitVec 16) : Nat := contextId.toNat % 8

/-- The communicator each process receives for under a prefix. -/
abbrev Holder := Nat → Nat → Option Nat

/-- The communicator that is cleaned up after, which is not itself a sub-communicator. -/
structure RevokedComm extends CommInfo where
  id : Nat
  parent : contextOffset recvcontextId = 0

def BelongsTo (holder : Holder) (c : RevokedComm) (i : Nat) (r : Request) : Prop :=
  holder i (contextPrefix r.info.contextId) = some c.id

def Exempt (r : Request) : Prop := contextOffset r.info.contextId ≠ 0 ∧ inAgreement r = true

instance (holder : Holder) (c : RevokedComm) (i : Nat) (r : Request) :
    Decidable (BelongsTo holder c i r) :=
  inferInstanceAs (Decidable (_ = _))

instance (r : Request) : Decidable (Exempt r) := inferInstanceAs (Decidable (_ ∧ _))

def toRevoke (holder : Holder) (c : RevokedComm) (i : Nat) (r : Request) : Bool :=
  decide (BelongsTo holder c i r ∧ ¬ Exempt r)

def toComplete (b : Build) (holder : Holder) (c : RevokedComm) (s : State) (k : Kind) :
    List (ReqId × ErrorClass) :=
  (List.range b.numQueues).flatMap (fun i =>
    ((s.list (k, i)).filter (fun x => toRevoke holder c i (s.req x))).map
      (fun x => (x, .revoked)))

/-- Cleaning up removes and completes the requests of the communicator, and no other request
is touched. -/
structure Revokes (b : Build) (holder : Holder) (c : RevokedComm) (s : State) : Prop where
  left : ∀ k i, (cleanRecvq b c.toCommInfo s).list (k, i) =
    (s.list (k, i)).filter (fun x => !toRevoke holder c i (s.req x))
  completed : cleanCompletes b c.toCommInfo s =
    toComplete b holder c s .unexpected ++ toComplete b holder c s .posted
  req : (cleanRecvq b c.toCommInfo s).req = s.req
  linked : ∀ q, IsQueue (cleanRecvq b c.toCommInfo s).next
    ((cleanRecvq b c.toCommInfo s).queue q) ((cleanRecvq b c.toCommInfo s).list q)

def Compared (c : RevokedComm) (contextId : BitVec 16) : Prop :=
  contextPrefix contextId = contextPrefix c.recvcontextId ∧
    (contextOffset contextId < 2 ∨ c.nodeAware = true ∧ contextOffset contextId < 6)

instance (c : RevokedComm) (contextId : BitVec 16) : Decidable (Compared c contextId) :=
  inferInstanceAs (Decidable (_ ∧ _))

theorem inContext_iff (c : RevokedComm) (r : Request) {k : Nat} (hk : k < 8) :
    inContext r (c.recvcontextId + BitVec.ofNat 16 k) = true ↔
      contextPrefix r.info.contextId = contextPrefix c.recvcontextId ∧
        contextOffset r.info.contextId = k := by
  have hparent := c.parent
  have hlt := c.recvcontextId.isLt
  unfold contextOffset at hparent
  have hsum : (c.recvcontextId + BitVec.ofNat 16 k).toNat = c.recvcontextId.toNat + k := by
    rw [BitVec.toNat_add, BitVec.toNat_ofNat]
    omega
  unfold inContext contextPrefix contextOffset
  rw [beq_iff_eq, ← BitVec.toNat_inj, hsum]
  omega

theorem cleans_eq (c : CommInfo) (r : Request) :
    cleans c r =
      (inContext r (c.recvcontextId + BitVec.ofNat 16 0) ||
        (inContext r (c.recvcontextId + BitVec.ofNat 16 1) && !inAgreement r) ||
        (c.nodeAware &&
          ((inContext r (c.recvcontextId + BitVec.ofNat 16 2) && !inAgreement r) ||
            (inContext r (c.recvcontextId + BitVec.ofNat 16 3) && !inAgreement r) ||
            (inContext r (c.recvcontextId + BitVec.ofNat 16 4) && !inAgreement r) ||
            (inContext r (c.recvcontextId + BitVec.ofNat 16 5) && !inAgreement r)))) := by
  unfold cleans
  simp only [BitVec.add_assoc]
  rfl

theorem cleans_iff (c : RevokedComm) (r : Request) :
    cleans c.toCommInfo r = true ↔ Compared c r.info.contextId ∧ ¬ Exempt r := by
  rw [cleans_eq]
  simp only [Bool.or_eq_true, Bool.and_eq_true, Bool.not_eq_true',
    inContext_iff c r (Nat.succ_pos 7), inContext_iff c r (show 1 < 8 by decide),
    inContext_iff c r (show 2 < 8 by decide), inContext_iff c r (show 3 < 8 by decide),
    inContext_iff c r (show 4 < 8 by decide), inContext_iff c r (show 5 < 8 by decide)]
  unfold Compared Exempt
  cases inAgreement r <;> cases c.nodeAware <;> simp <;> omega

def OthersApart (b : Build) (holder : Holder) (c : RevokedComm) (s : State) : Prop :=
  ∀ k, ∀ i < b.numQueues, ∀ x ∈ s.list (k, i), ¬ Exempt (s.req x) →
    ¬ BelongsTo holder c i (s.req x) → ¬ Compared c (s.req x).info.contextId

def OwnCompared (b : Build) (holder : Holder) (c : RevokedComm) (s : State) : Prop :=
  ∀ k, ∀ i < b.numQueues, ∀ x ∈ s.list (k, i), ¬ Exempt (s.req x) →
    BelongsTo holder c i (s.req x) → Compared c (s.req x).info.contextId

instance (P : Kind → Prop) [DecidablePred P] : Decidable (∀ k, P k) :=
  decidable_of_iff (P .posted ∧ P .unexpected)
    ⟨fun h k => match k with | .posted => h.1 | .unexpected => h.2, fun h => ⟨h _, h _⟩⟩

instance (b : Build) (holder : Holder) (c : RevokedComm) (s : State) :
    Decidable (OthersApart b holder c s) :=
  inferInstanceAs (Decidable (∀ _ : Kind, ∀ i < b.numQueues, _))

instance (b : Build) (holder : Holder) (c : RevokedComm) (s : State) :
    Decidable (OwnCompared b holder c s) :=
  inferInstanceAs (Decidable (∀ _ : Kind, ∀ i < b.numQueues, _))

theorem cleans_eq_toRevoke_iff (holder : Holder) (c : RevokedComm) (i : Nat) (r : Request) :
    cleans c.toCommInfo r = toRevoke holder c i r ↔
      (¬ Exempt r → ¬ BelongsTo holder c i r → ¬ Compared c r.info.contextId) ∧
        (¬ Exempt r → BelongsTo holder c i r → Compared c r.info.contextId) := by
  rw [Bool.eq_iff_iff, cleans_iff, toRevoke, decide_eq_true_iff]
  tauto

structure Linked (b : Build) (s : State) (L : QId → List ReqId) : Prop extends Rep s L where
  inRange : ∀ k i, L (k, i) ≠ [] → i < b.numQueues

theorem linked_kept (b : Build) : Kept b (Linked b) where
  rep h := h.toRep
  dequeue h hl := ⟨h.toRep.dequeue hl,
    inRange_update h.inRange (h.inRange _ _ (by rw [hl]; simp))⟩
  enqueue h hi req := ⟨h.toRep.enqueue _ req, inRange_update h.inRange hi⟩
  tick h := ⟨h.toRep.tick, h.inRange⟩
  req h _ := ⟨h.toRep.congr rfl rfl rfl, h.inRange⟩

section Clean
variable {b : Build} {s : State} {L : QId → List ReqId}

theorem sweepAll_swept (h : Rep s L) (k : Kind) (p : Request → Bool) :
    SweptAll k (List.range b.numQueues) p s L (sweepAll b k p s) :=
  sweeps_swept h k p List.nodup_range

theorem inRange_swept {k : Kind} {is : List Nat} {gone : ReqId → Bool}
    (h : ∀ k i, L (k, i) ≠ [] → i < b.numQueues) (k' : Kind) (i : Nat)
    (hne : sweptLists k is gone L (k', i) ≠ []) : i < b.numQueues := by
  apply h k' i
  intro hnil
  apply hne
  simp [sweptLists, hnil]

theorem Linked.sweepAll (h : Linked b s L) (k : Kind) (p : Request → Bool) :
    ∃ L', Linked b (sweepAll b k p s) L' :=
  ⟨_, (sweepAll_swept h.toRep k p).rep, inRange_swept h.inRange⟩

theorem call_linked {w : World} {s' : State} {o : Op} {ret : Ret} (h : Linked b w.state L)
    (hc : call b w.state o = .ok (s', ret)) : ∃ L', Linked b (tick s') L' := by
  apply call_kept (linked_kept b) h ?_ ?_ hc
  · intro c _
    obtain ⟨L', hL'⟩ := h.sweepAll .unexpected (cleans c)
    exact hL'.sweepAll .posted (cleans c)
  · intro usesVc _
    exact h.sweepAll .posted (usesFailed usesVc)

theorem clean_swept (h : Linked b s L) (c : CommInfo) :
    Rep (cleanRecvq b c s) (fun q => (L q).filter (fun x => !cleans c (s.req x))) ∧
      (cleanRecvq b c s).req = s.req := by
  have hu := sweepAll_swept (b := b) h.toRep .unexpected (cleans c)
  have hp := sweepAll_swept (b := b) hu.rep .posted (cleans c)
  refine ⟨?_, hp.req.trans hu.req⟩
  have hrep := hp.rep
  rw [hu.req] at hrep
  have hlists : sweptLists .posted (List.range b.numQueues) (fun x => cleans c (s.req x))
      (sweptLists .unexpected (List.range b.numQueues) (fun x => cleans c (s.req x)) L) =
        fun q => (L q).filter (fun x => !cleans c (s.req x)) := by
    funext q
    obtain ⟨k, i⟩ := q
    by_cases hi : i < b.numQueues
    · cases k <;> simp [sweptLists, hi]
    · have hnil : L (k, i) = [] := by
        by_contra hne
        exact hi (h.inRange k i hne)
      simp [sweptLists, hnil]
  rw [hlists] at hrep
  exact hrep

theorem cleanCompletes_eq (h : Rep s L) (c : CommInfo) :
    cleanCompletes b c s =
      (List.range b.numQueues).flatMap (fun i =>
        ((L (.unexpected, i)).filter (fun x => cleans c (s.req x))).map
          (fun x => (x, .revoked))) ++
      (List.range b.numQueues).flatMap (fun i =>
        ((L (.posted, i)).filter (fun x => cleans c (s.req x))).map
          (fun x => (x, .revoked))) := by
  have hu := sweepAll_swept (b := b) h .unexpected (cleans c)
  unfold cleanCompletes
  rw [sweepsComplete_eq h _ _ _ List.nodup_range, sweepsComplete_eq hu.rep _ _ _ List.nodup_range, hu.req]
  simp [sweptLists]

theorem found_of_left {holder : Holder} {c : RevokedComm} (h : Linked b s L)
    (hleft : ∀ k i, (cleanRecvq b c.toCommInfo s).list (k, i) =
      (s.list (k, i)).filter (fun x => !toRevoke holder c i (s.req x)))
    {k : Kind} {i : Nat} {x : ReqId} (hx : x ∈ L (k, i)) :
    cleans c.toCommInfo (s.req x) = toRevoke holder c i (s.req x) := by
  have hrep := (clean_swept h c.toCommInfo).1
  have heq : (L (k, i)).filter (fun x => !cleans c.toCommInfo (s.req x)) =
      (L (k, i)).filter (fun x => !toRevoke holder c i (s.req x)) := by
    have hki := hleft k i
    rw [hrep.list_eq, h.toRep.list_eq] at hki
    exact hki
  have hmem : x ∈ (L (k, i)).filter (fun x => !cleans c.toCommInfo (s.req x)) ↔
      x ∈ (L (k, i)).filter (fun x => !toRevoke holder c i (s.req x)) := by
    rw [heq]
  simp only [List.mem_filter, hx, true_and, Bool.not_eq_true'] at hmem
  cases hc : cleans c.toCommInfo (s.req x) with
  | false => exact (hmem.mp hc).symm
  | true =>
    rw [hc] at hmem
    cases ht : toRevoke holder c i (s.req x) with
    | false => exact hmem.mpr ht
    | true => rfl

theorem revokes_of_found {holder : Holder} {c : RevokedComm} (h : Linked b s L)
    (hfound : ∀ k, ∀ i < b.numQueues, ∀ x ∈ L (k, i),
      cleans c.toCommInfo (s.req x) = toRevoke holder c i (s.req x)) :
    Revokes b holder c s := by
  obtain ⟨hrep, hreq⟩ := clean_swept h c.toCommInfo
  have hlist := h.toRep.list_eq
  refine ⟨?_, ?_, hreq, ?_⟩
  · intro k i
    rw [hrep.list_eq, hlist]
    apply List.filter_congr
    intro x hx
    rw [hfound k i (h.inRange k i (List.ne_nil_of_mem hx)) x hx]
  · have hpart : ∀ k, toComplete b holder c s k = (List.range b.numQueues).flatMap (fun i =>
        ((L (k, i)).filter (fun x => cleans c.toCommInfo (s.req x))).map
          (fun x => (x, .revoked))) := by
      intro k
      unfold toComplete
      rw [hlist]
      apply List.flatMap_congr
      intro i hi
      congr 1
      apply List.filter_congr
      intro x hx
      exact (hfound k i (List.mem_range.mp hi) x hx).symm
    rw [cleanCompletes_eq h.toRep, hpart, hpart]
  · rw [hrep.list_eq]
    exact hrep.queue

end Clean

/-- In every reachable state, cleaning up completes the requests of the communicator, and leaves
the others as they are, exactly when no other communicator has a request with a context id that
is compared, in whatever process, and every request of the communicator has one. -/
theorem revokes_iff (b : Build) (ops : List Op) (w : World)
    (hrun : run (step b) World.init ops = .ok w) (holder : Holder) (c : RevokedComm) :
    Revokes b holder c w.state ↔
      OthersApart b holder c w.state ∧ OwnCompared b holder c w.state := by
  have hinv : ∃ L, Linked b w.state L := by
    refine run_invariant (I := fun w => ∃ L, Linked b w.state L) ?_
      ⟨_, init_rep, fun _ _ h => absurd rfl h⟩ (Along.of_forall (P := fun _ _ => True) (fun _ _ => trivial) _ _) hrun
    intro w o w' hI _ hs
    obtain ⟨L, hL⟩ := hI
    obtain ⟨s', ret, hc, rfl⟩ := step_cases hs
    exact call_linked hL hc
  obtain ⟨L, h⟩ := hinv
  have hlist := h.toRep.list_eq
  constructor
  · intro hrev
    constructor <;> intro k i hi x hx
    · rw [hlist] at hx
      exact ((cleans_eq_toRevoke_iff holder c i _).mp (found_of_left h hrev.left hx)).1
    · rw [hlist] at hx
      exact ((cleans_eq_toRevoke_iff holder c i _).mp (found_of_left h hrev.left hx)).2
  · rintro ⟨hothers, hown⟩
    apply revokes_of_found h
    intro k i hi x hx
    rw [cleans_eq_toRevoke_iff]
    rw [← hlist] at hx
    exact ⟨hothers k i hi x hx, hown k i hi x hx⟩

theorem revokes_iff_apart :
    ∃ w, run (step (.fineGrain 0 2)) World.init
        [.post 0 5 16 0 1 false, .post 1 30 17 0 1 false,
          .arrive ⟨6, 0, 16, 1⟩ .none 7 (fun _ => false) false,
          .arrive ⟨6, 0, 32, 1⟩ .none 8 (fun _ => false) false] = .ok w ∧
      cleanCompletes (.fineGrain 0 2) ⟨16, true⟩ w.state = [(2, .revoked), (0, .revoked)] ∧
      Revokes (.fineGrain 0 2) (fun _ p => some (p / 2)) ⟨⟨16, true⟩, 1, rfl⟩ w.state := by
  have hseen : (run (step (.fineGrain 0 2)) World.init
      [.post 0 5 16 0 1 false, .post 1 30 17 0 1 false,
        .arrive ⟨6, 0, 16, 1⟩ .none 7 (fun _ => false) false,
        .arrive ⟨6, 0, 32, 1⟩ .none 8 (fun _ => false) false]).toOption.map
      (fun w => (cleanCompletes (.fineGrain 0 2) ⟨16, true⟩ w.state,
        decide (OthersApart (.fineGrain 0 2) (fun _ p => some (p / 2)) ⟨⟨16, true⟩, 1, rfl⟩ w.state ∧
          OwnCompared (.fineGrain 0 2) (fun _ p => some (p / 2)) ⟨⟨16, true⟩, 1, rfl⟩ w.state))) =
        some ([(2, .revoked), (0, .revoked)], true) := by decide +kernel
  obtain ⟨w, hw, hboth⟩ := ok_of_observed hseen
  obtain ⟨hcompleted, hcond⟩ := Prod.mk.inj hboth
  exact ⟨w, hw, hcompleted, (revokes_iff _ _ w hw _ _).mpr (of_decide_eq_true hcond)⟩

theorem shared_prefix_revoked :
    ∃ w, run (step (.fineGrain 0 2)) World.init
        [.post 0 5 16 1 2 false, .post 0 5 23 0 1 false] = .ok w ∧
      cleanCompletes (.fineGrain 0 2) ⟨16, true⟩ w.state = [(0, .revoked)] ∧
      (cleanRecvq (.fineGrain 0 2) ⟨16, true⟩ w.state).list (.posted, 0) = [1] ∧
      ¬ Revokes (.fineGrain 0 2) (fun i _ => some (i + 1)) ⟨⟨16, true⟩, 1, rfl⟩ w.state := by
  have hseen : (run (step (.fineGrain 0 2)) World.init
      [.post 0 5 16 1 2 false, .post 0 5 23 0 1 false]).toOption.map
      (fun w => (cleanCompletes (.fineGrain 0 2) ⟨16, true⟩ w.state,
        (cleanRecvq (.fineGrain 0 2) ⟨16, true⟩ w.state).list (.posted, 0),
        toComplete (.fineGrain 0 2) (fun i _ => some (i + 1)) ⟨⟨16, true⟩, 1, rfl⟩ w.state
          .unexpected ++
        toComplete (.fineGrain 0 2) (fun i _ => some (i + 1)) ⟨⟨16, true⟩, 1, rfl⟩ w.state
          .posted)) =
        some ([(0, .revoked)], [1], [(1, .revoked)]) := by decide +kernel
  obtain ⟨w, hw, hall⟩ := ok_of_observed hseen
  obtain ⟨hcompleted, hrest⟩ := Prod.mk.inj hall
  obtain ⟨hleft, hshould⟩ := Prod.mk.inj hrest
  refine ⟨w, hw, hcompleted, hleft, ?_⟩
  intro hrev
  have heq := hrev.completed
  rw [hcompleted, hshould] at heq
  cases heq

end FgMpi.Recvq.Revocation
