import FgMpi.Machine.Runs
import FgMpi.Recvq.Lists

/-! No receive waits for a message that has arrived. -/

namespace FgMpi.Recvq.Matching
open Machine.Checked Machine.Runs
open Tag Recvq.Match Recvq.Queues Recvq.Lists
open Function (update update_of_ne update_self)

/-- The calls considered: default dequeue hook, no failed connection, and senders that are
given tags without the error bits (`MPI_TAG_UB` is below both). -/
def Quiet : Op → Prop
  | .post _ _ _ _ _ moribund => moribund = false
  | .arrive sent _ _ hook _ => NoErrorBits sent.tag ∧ hook = fun _ => false
  | .cancelRecv _ hook => hook = false
  | .clean _ => False
  | .completePosted _ => False
  | _ => True

variable {b : Build}

theorem wants_iff (hb : b.fg = true) (s : State) (source : BitVec 32) (tag : TagVal)
    (contextId : BitVec 16) (me : BitVec 32) (u : ReqId) :
    wants b s source tag contextId me u = true ↔
      Matches ⟨tag, source, contextId, me⟩ (s.req u).info := by
  unfold wants
  rw [hb]
  exact matchWithLeftMask_iff source tag contextId me (s.req u).info

theorem workingTag_stampTag {tag : TagVal} (h : NoErrorBits tag) (flag : Errflag) :
    workingTag (stampTag tag flag) = tag := cleared_stampTag h flag

theorem takes_iff (hb : b.fg = true) (s : State) {sent : MessageMatch}
    (hsent : NoErrorBits sent.tag) (flag : Errflag) {p : ReqId}
    (hmask : (s.req p).mask = postedMask (s.req p).info) :
    takes b s (onWire sent flag) p = true ↔ Matches (s.req p).info (onWire sent flag) := by
  have htag : maskErrorBits (stampTag sent.tag flag) = sent.tag := by
    rw [maskErrorBits_stampTag]
    exact hsent
  unfold takes
  rw [hb, hmask, matchWithLeftRightMask_iff]
  simp only [Matches, onWire, workingTag_stampTag hsent, htag]

theorem maskErrorBits_restoredTag {tag : TagVal} (h : NoErrorBits tag) (flag : Errflag) :
    maskErrorBits (restoredTag (stampTag tag flag)) = maskErrorBits (stampTag tag flag) := by
  have hwork := workingTag_stampTag h flag
  unfold restoredTag
  rw [hwork, maskErrorBits_stampTag]
  split <;> split <;> simp

theorem matches_stored {sent : MessageMatch} (h : NoErrorBits sent.tag) (flag : Errflag)
    (criteria : MessageMatch) :
    Matches criteria { onWire sent flag with tag := restoredTag (onWire sent flag).tag } ↔
      Matches criteria (onWire sent flag) := by
  simp only [Matches, onWire, maskErrorBits_restoredTag h]

structure Apart (s : State) (L : QId → List ReqId) : Prop extends Rep s L where
  mask : ∀ i, ∀ p ∈ L (.posted, i), (s.req p).mask = postedMask (s.req p).info
  apart : ∀ i, ∀ p ∈ L (.posted, i), ∀ u ∈ L (.unexpected, i), ¬ Matches (s.req p).info (s.req u).info

theorem init_apart : Apart State.init (fun _ => []) where
  toRep := init_rep
  mask _ _ hp := by cases hp
  apart _ _ hp := by cases hp

variable {s : State} {L : QId → List ReqId}

theorem Apart.shrink {s' : State} {L' : QId → List ReqId} (h : Apart s L) (hrep : Rep s' L')
    (hsub : ∀ q x, x ∈ L' q → x ∈ L q)
    (hreq : ∀ x, (s'.req x).info = (s.req x).info ∧ (s'.req x).mask = (s.req x).mask) :
    Apart s' L' := by
  refine ⟨hrep, ?_, ?_⟩
  · intro i p hp
    rw [(hreq p).1, (hreq p).2]
    exact h.mask i p (hsub _ _ hp)
  · intro i p hp u hu
    rw [(hreq p).1, (hreq u).1]
    exact h.apart i p (hsub _ _ hp) u (hsub _ _ hu)

theorem setComm_info (s : State) (r : ReqId) (comm : Nat) (x : ReqId) :
    ((setComm s r comm).req x).info = (s.req x).info ∧
      ((setComm s r comm).req x).mask = (s.req x).mask := by
  unfold setComm
  by_cases hx : x = r
  · subst hx
    simp
  · simp [update_of_ne hx]

theorem Apart.dequeue (h : Apart s L) {q : QId} {xs ys : List ReqId} {x : ReqId} (hl : L q = xs ++ x :: ys) :
    Apart (tick (dequeue s q xs.getLast? x)) (update L q (xs ++ ys)) :=
  h.shrink (h.toRep.dequeue hl).tick (fun _ _ hy => mem_of_mem_removed hl hy)
    (fun _ => ⟨rfl, rfl⟩)

theorem Apart.take (h : Apart s L) {q : QId}
    {xs ys : List ReqId} {x : ReqId} (hl : L q = xs ++ x :: ys) (comm : Nat) :
    Apart (tick (setComm (Queues.dequeue s q xs.getLast? x) x comm))
      (update L q (xs ++ ys)) := by
  have hrep : Rep (setComm (Queues.dequeue s q xs.getLast? x) x comm)
      (update L q (xs ++ ys)) := (h.toRep.dequeue hl).congr rfl rfl rfl
  exact h.shrink hrep.tick (fun _ _ hy => mem_of_mem_removed hl hy)
    (fun y => setComm_info _ x comm y)

theorem Apart.post (h : Apart s L) {i : Nat} {req : Request} (hmask : req.mask = postedMask req.info)
    (hnew : ∀ u ∈ L (.unexpected, i), ¬ Matches req.info (s.req u).info) :
    Apart (tick (enqueue s (.posted, i) req))
      (update L (.posted, i) (L (.posted, i) ++ [s.clock])) := by
  have hold : ∀ q x, x ∈ L q → (tick (enqueue s (.posted, i) req)).req x = s.req x :=
    fun q x hx => update_of_ne (Nat.ne_of_lt (h.old q x hx)) _ _
  have hself : (tick (enqueue s (.posted, i) req)).req s.clock = req := update_self _ _ _
  refine ⟨h.toRep.enqueue _ req, ?_, ?_⟩
  · intro j p hp
    rcases mem_enqueued hp with hp | ⟨_, rfl⟩
    · rw [hold _ p hp]
      exact h.mask j p hp
    · rw [hself]
      exact hmask
  · intro j p hp u hu
    rw [update_of_ne (by simp)] at hu
    rcases mem_enqueued hp with hp | ⟨hj, rfl⟩
    · rw [hold _ p hp, hold _ u hu]
      exact h.apart j p hp u hu
    · obtain rfl : j = i := congrArg Prod.snd hj
      rw [hself, hold _ u hu]
      exact hnew u hu

theorem Apart.arrive (h : Apart s L) {i : Nat} {req : Request}
    (hnew : ∀ p ∈ L (.posted, i), ¬ Matches (s.req p).info req.info) :
    Apart (tick (enqueue s (.unexpected, i) req))
      (update L (.unexpected, i) (L (.unexpected, i) ++ [s.clock])) := by
  have hold : ∀ q x, x ∈ L q → (tick (enqueue s (.unexpected, i) req)).req x = s.req x :=
    fun q x hx => update_of_ne (Nat.ne_of_lt (h.old q x hx)) _ _
  have hself : (tick (enqueue s (.unexpected, i) req)).req s.clock = req := update_self _ _ _
  refine ⟨h.toRep.enqueue _ req, ?_, ?_⟩
  · intro j p hp
    rw [update_of_ne (by simp)] at hp
    rw [hold _ p hp]
    exact h.mask j p hp
  · intro j p hp u hu
    rw [update_of_ne (by simp)] at hp
    rcases mem_enqueued hu with hu | ⟨hj, rfl⟩
    · rw [hold _ p hp, hold _ u hu]
      exact h.apart j p hp u hu
    · obtain rfl : j = i := congrArg Prod.snd hj
      rw [hself, hold _ p hp]
      exact hnew p hp

inductive Effect (b : Build) (s : State) (L : QId → List ReqId) :
    Op → State → Ret → (QId → List ReqId) → Prop
  | received {source tag contextId me comm i xs u ys} (hi : queueIndex b me = .ok i)
      (hu : FirstAt (wants b s source tag contextId me) (L (.unexpected, i)) xs u ys) :
      Effect b s L (.post source tag contextId me comm false)
        (setComm (dequeue s (.unexpected, i) xs.getLast? u) u comm) (.found u)
        (update L (.unexpected, i) (xs ++ ys))
  | probed {source tag contextId me comm i xs u ys} (hi : queueIndex b me = .ok i)
      (hu : FirstAt (wants b s source tag contextId me) (L (.unexpected, i)) xs u ys) :
      Effect b s L (.matchedProbe source tag contextId me comm)
        (setComm (dequeue s (.unexpected, i) xs.getLast? u) u comm) (.found u)
        (update L (.unexpected, i) (xs ++ ys))
  | posted {source tag contextId me comm i} (hi : queueIndex b me = .ok i)
      (hnone : ∀ u ∈ L (.unexpected, i), wants b s source tag contextId me u = false) :
      Effect b s L (.post source tag contextId me comm false)
        (enqueue s (.posted, i) ⟨⟨tag, source, contextId, me⟩,
          postedMask ⟨tag, source, contextId, me⟩, 0, comm⟩) (.enqueued s.clock)
        (update L (.posted, i) (L (.posted, i) ++ [s.clock]))
  | delivered {sent flag sreqId revoked i xs p ys} (hi : queueIndex b sent.destRank = .ok i)
      (hsent : NoErrorBits sent.tag)
      (hp : FirstAt (takes b s (onWire sent flag)) (L (.posted, i)) xs p ys) :
      Effect b s L (.arrive sent flag sreqId (fun _ => false) revoked)
        (dequeue s (.posted, i) xs.getLast? p) (.found p)
        (update L (.posted, i) (xs ++ ys))
  | stored {sent flag sreqId revoked i} (hi : queueIndex b sent.destRank = .ok i)
      (hsent : NoErrorBits sent.tag)
      (hnone : ∀ p ∈ L (.posted, i), takes b s (onWire sent flag) p = false) :
      Effect b s L (.arrive sent flag sreqId (fun _ => false) revoked)
        (enqueue s (.unexpected, i) ⟨{ onWire sent flag with
          tag := restoredTag (onWire sent flag).tag }, ⟨0, 0, 0, 0⟩, sreqId, 0⟩)
        (.enqueued s.clock)
        (update L (.unexpected, i) (L (.unexpected, i) ++ [s.clock]))
  | sendCancelled {sreqId info i xs u ys} (hl : L (.unexpected, i) = xs ++ u :: ys) :
      Effect b s L (.cancelSend sreqId info) (dequeue s (.unexpected, i) xs.getLast? u)
        (.found u) (update L (.unexpected, i) (xs ++ ys))
  | recvCancelled {rreq i xs ys} (hl : L (.posted, i) = xs ++ rreq :: ys) :
      Effect b s L (.cancelRecv rreq false) (dequeue s (.posted, i) xs.getLast? rreq)
        (.found rreq) (update L (.posted, i) (xs ++ ys))
  | looked {source tag contextId me ret} : Effect b s L (.probe source tag contextId me) s ret L
  | missed {o} (ho : (∀ a c d e f g, o ≠ .post a c d e f g) ∧ ∀ a c d e f, o ≠ .arrive a c d e f) :
      Effect b s L o s .nothing L

theorem call_effect (hb : b.fg = true) {s' : State} {o : Op}
    {ret : Ret} (h : Rep s L) (ho : Quiet o) (hc : call b s o = .ok (s', ret)) :
    ∃ L', Effect b s L o s' ret L' := by
  cases o with
  | post source tag contextId me comm moribund =>
    obtain rfl : moribund = false := ho
    obtain ⟨i, hi, ⟨xs, u, ys, hu, rfl, rfl⟩ | ⟨hnone, ⟨hm, _⟩ | ⟨rfl, rfl⟩⟩⟩ := post_cases h hc
    · exact ⟨_, .received hi hu⟩
    · cases hm
    · exact ⟨_, .posted hi hnone⟩
  | arrive sent flag sreqId hook revoked =>
    obtain ⟨hsent, rfl⟩ := ho
    obtain ⟨i, hi, ⟨xs, p, ys, hp, rfl, rfl⟩ | ⟨hnone, rfl, rfl⟩⟩ := arrive_cases h hb hc
    · exact ⟨_, .delivered hi hsent hp⟩
    · exact ⟨_, .stored hi hsent hnone⟩
  | probe source tag contextId me =>
    obtain rfl := probe_cases hc
    exact ⟨_, .looked⟩
  | matchedProbe source tag contextId me comm =>
    obtain ⟨i, hi, ⟨xs, u, ys, hu, rfl, rfl⟩ | ⟨rfl, rfl⟩⟩ := matchedProbe_cases h hc
    · exact ⟨_, .probed hi hu⟩
    · exact ⟨_, .missed ⟨by simp, by simp⟩⟩
  | cancelSend sreqId info =>
    obtain ⟨i, hi, ⟨xs, u, ys, hl, rfl, rfl⟩ | ⟨rfl, rfl⟩⟩ := cancelSend_cases h hc
    · exact ⟨_, .sendCancelled hl⟩
    · exact ⟨_, .missed ⟨by simp, by simp⟩⟩
  | cancelRecv rreq hook =>
    obtain rfl : hook = false := ho
    obtain ⟨i, hi, ⟨xs, ys, hl, rfl, rfl⟩ | ⟨rfl, rfl⟩⟩ := cancelRecv_cases h hc
    · exact ⟨_, .recvCancelled hl⟩
    · exact ⟨_, .missed ⟨by simp, by simp⟩⟩
  | clean c => exact absurd ho id
  | completePosted usesVc => exact absurd ho id

theorem Apart.unchanged (h : Apart s L) : Apart (tick s) L :=
  h.shrink h.toRep.tick (fun _ _ hx => hx) (fun _ => ⟨rfl, rfl⟩)

theorem Effect.apart (hb : b.fg = true) {s' : State} {L' : QId → List ReqId}
    {o : Op} {ret : Ret} (h : Apart s L) (he : Effect b s L o s' ret L') :
    Apart (tick s') L' := by
  cases he with
  | received hi hu => exact h.take hu.split _
  | probed hi hu => exact h.take hu.split _
  | @posted source tag contextId me comm i hi hnone =>
    refine h.post rfl ?_
    intro u hu hm
    have hw := (wants_iff hb s source tag contextId me u).mpr hm
    rw [hnone u hu] at hw
    cases hw
  | delivered hi hsent hp => exact h.dequeue hp.split
  | @stored sent flag sreqId revoked i hi hsent hnone =>
    refine h.arrive ?_
    intro p hp hm
    have ht := (takes_iff hb s hsent flag (h.mask i p hp)).mpr ((matches_stored hsent flag _).mp hm)
    rw [hnone p hp] at ht
    cases ht
  | sendCancelled hl => exact h.dequeue hl
  | recvCancelled hl => exact h.dequeue hl
  | looked => exact h.unchanged
  | missed ho => exact h.unchanged

theorem step_apart (hb : b.fg = true) {w w' : World} {o : Op}
    (h : ∃ L, Apart w.state L) (ho : Quiet o) (hs : step b w o = .ok w') :
    ∃ L, Apart w'.state L := by
  obtain ⟨L, hL⟩ := h
  obtain ⟨s', ret, hc, rfl⟩ := step_cases hs
  obtain ⟨L', he⟩ := call_effect hb hL.toRep ho hc
  exact ⟨L', he.apart hb hL⟩

/-- In every state that quiet calls reach, no message of a destination's unexpected queue
matches a receive of its posted queue. -/
theorem posted_never_matches_unexpected (startrank nfg : Nat) (ops : List Op)
    (hops : ∀ o ∈ ops, Quiet o) (w : World)
    (hrun : run (step (.fineGrain startrank nfg)) World.init ops = .ok w) (i : Nat) :
    ∀ p ∈ w.state.list (.posted, i), ∀ u ∈ w.state.list (.unexpected, i),
      ¬ Matches (w.state.req p).info (w.state.req u).info := by
  have hinv : ∃ L, Apart w.state L := by
    refine run_invariant (I := fun w => ∃ L, Apart w.state L) (P := fun _ o => Quiet o)
      ?_ ⟨_, init_apart⟩ (Along.of_mem hops _) hrun
    intro w o w' hI ho hs
    exact step_apart rfl hI ho hs
  obtain ⟨L, hL⟩ := hinv
  rw [hL.toRep.list_eq]
  exact hL.apart i

theorem posted_never_matches_unexpected_crossing :
    ∃ w, run (step (.fineGrain 0 1)) World.init
        [.arrive ⟨5, 3, 16, 0⟩ .procFailed 7 (fun _ => false) false,
          .post anySource 4 16 0 0 false] = .ok w ∧
      w.state.list (.posted, 0) = [1] ∧ w.state.list (.unexpected, 0) = [0] ∧
      ¬ Matches (w.state.req 1).info (w.state.req 0).info := by
  have hseen : (run (step (.fineGrain 0 1)) World.init
      [.arrive ⟨5, 3, 16, 0⟩ .procFailed 7 (fun _ => false) false,
        .post anySource 4 16 0 0 false]).toOption.map
      (fun w => (w.state.list (.posted, 0), w.state.list (.unexpected, 0))) =
        some ([1], [0]) := by decide +kernel
  obtain ⟨w, hw, hlists⟩ := ok_of_observed hseen
  obtain ⟨hp, hu⟩ := Prod.mk.inj hlists
  refine ⟨w, hw, hp, hu, ?_⟩
  refine posted_never_matches_unexpected 0 1 _ ?_ w hw 0 1 (by simp [hp]) 0 (by simp [hu])
  intro o ho
  simp only [List.mem_cons, List.not_mem_nil, or_false] at ho
  rcases ho with rfl | rfl
  · exact ⟨by decide, rfl⟩
  · rfl

end FgMpi.Recvq.Matching
