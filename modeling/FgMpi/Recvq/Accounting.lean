import Mathlib.Data.List.TakeWhile
import FgMpi.Machine.Runs
import FgMpi.Recvq.Lists

/-! The two length counters against the requests that are linked. -/

namespace FgMpi.Recvq.Accounting
open Machine.Checked Machine.LinkedQueue Machine.Runs
open Recvq.Match Recvq.Queues Recvq.Lists
open Function (update update_eq_self update_idem update_of_ne update_self)

def total (b : Build) (L : QId → List ReqId) (k : Kind) : Nat :=
  ∑ i ∈ Finset.range b.numQueues, (L (k, i)).length

structure Books (b : Build) (s : State) (L : QId → List ReqId) : Prop extends Rep s L where
  inRange : ∀ k i, L (k, i) ≠ [] → i < b.numQueues
  postedLength : s.postedLength = BitVec.ofNat 32 (total b L .posted)
  unexpectedLength : s.unexpectedLength = BitVec.ofNat 32 (total b L .unexpected)

theorem init_books (b : Build) : Books b State.init (fun _ => []) where
  toRep := init_rep
  inRange _ _ h := absurd rfl h
  postedLength := by simp [total, State.init]
  unexpectedLength := by simp [total, State.init]

section Total
variable {b : Build} {L : QId → List ReqId} {l : List ReqId} {k : Kind} {i : Nat}

theorem total_update (hi : i < b.numQueues) :
    total b (update L (k, i) l) k + (L (k, i)).length = total b L k + l.length := by
  have hmem : i ∈ Finset.range b.numQueues := Finset.mem_range.mpr hi
  unfold total
  rw [← Finset.add_sum_erase _ _ hmem, ← Finset.add_sum_erase _ (fun j => (L (k, j)).length) hmem]
  have hrest : ∑ j ∈ (Finset.range b.numQueues).erase i,
      (update L (k, i) l (k, j)).length =
        ∑ j ∈ (Finset.range b.numQueues).erase i, (L (k, j)).length := by
    refine Finset.sum_congr rfl ?_
    intro j hj
    have hne : (k, j) ≠ (k, i) := by
      intro he
      exact (Finset.mem_erase.mp hj).1 (congrArg Prod.snd he)
    rw [update_of_ne hne]
  rw [hrest, update_self]
  omega

theorem total_update_of_ne {k' : Kind} (hk : k' ≠ k) :
    total b (update L (k, i) l) k' = total b L k' := by
  unfold total
  refine Finset.sum_congr rfl ?_
  intro j _
  rw [update_of_ne]
  intro he
  exact hk (congrArg Prod.fst he)

theorem ofNat_sub_of_add {m n d : Nat} (h : m + d = n) :
    BitVec.ofNat 32 n - BitVec.ofNat 32 d = BitVec.ofNat 32 m := by
  rw [← h, BitVec.ofNat_add, BitVec.add_sub_cancel]

end Total

section Steps
variable {b : Build} {s : State} {L : QId → List ReqId}

theorem Books.congr {s' : State} (h : Books b s L) (hn : s'.next = s.next)
    (hq : s'.queue = s.queue) (hc : s'.clock = s.clock) (hp : s'.postedLength = s.postedLength)
    (hu : s'.unexpectedLength = s.unexpectedLength) : Books b s' L where
  toRep := h.toRep.congr hn hq hc
  inRange := h.inRange
  postedLength := by rw [hp]; exact h.postedLength
  unexpectedLength := by rw [hu]; exact h.unexpectedLength

theorem Books.tick (h : Books b s L) : Books b (tick s) L :=
  ⟨h.toRep.tick, h.inRange, h.postedLength, h.unexpectedLength⟩

theorem inRange_update {q : QId} {l : List ReqId} (h : ∀ k i, L (k, i) ≠ [] → i < b.numQueues)
    (hq : q.2 < b.numQueues) (k : Kind) (i : Nat) (hne : update L q l (k, i) ≠ []) :
    i < b.numQueues := by
  by_cases hp : (k, i) = q
  · rw [← hp] at hq
    exact hq
  · rw [update_of_ne hp] at hne
    exact h k i hne

theorem Books.dequeue (h : Books b s L) {k : Kind} {i : Nat} {xs ys : List ReqId} {x : ReqId}
    (hl : L (k, i) = xs ++ x :: ys) :
    Books b (dequeue s (k, i) xs.getLast? x) (update L (k, i) (xs ++ ys)) := by
  have hi : i < b.numQueues := h.inRange k i (by rw [hl]; simp)
  have htotal : total b (update L (k, i) (xs ++ ys)) k + 1 = total b L k := by
    have hup := total_update (L := L) (l := xs ++ ys) (k := k) hi
    rw [hl] at hup
    simp only [List.length_append, List.length_cons] at hup
    omega
  refine ⟨h.toRep.dequeue hl, inRange_update h.inRange hi, ?_, ?_⟩
  · cases k with
    | posted =>
      simp only [Queues.dequeue, if_true, h.postedLength]
      exact ofNat_sub_of_add htotal
    | unexpected =>
      rw [total_update_of_ne (by simp)]
      exact h.postedLength
  · cases k with
    | posted =>
      rw [total_update_of_ne (by simp)]
      exact h.unexpectedLength
    | unexpected =>
      simp only [Queues.dequeue, if_true, h.unexpectedLength]
      exact ofNat_sub_of_add htotal

theorem Books.enqueue (h : Books b s L) {k : Kind} {i : Nat} (hi : i < b.numQueues) (req : Request) :
    Books b (Lists.tick (enqueue s (k, i) req))
      (update L (k, i) (L (k, i) ++ [s.clock])) := by
  have htotal : total b (update L (k, i) (L (k, i) ++ [s.clock])) k =
      total b L k + 1 := by
    have hup := total_update (L := L) (l := L (k, i) ++ [s.clock]) (k := k) hi
    simp only [List.length_append, List.length_singleton] at hup
    omega
  refine ⟨h.toRep.enqueue (k, i) req, inRange_update h.inRange hi, ?_, ?_⟩
  · cases k with
    | posted =>
      rw [htotal, BitVec.ofNat_add, ← h.postedLength]
      rfl
    | unexpected =>
      rw [total_update_of_ne (by simp)]
      exact h.postedLength
  · cases k with
    | posted =>
      rw [total_update_of_ne (by simp)]
      exact h.unexpectedLength
    | unexpected =>
      rw [htotal, BitVec.ofNat_add, ← h.unexpectedLength]
      rfl

end Steps

section Loops
variable {b : Build} {s : State} {L : QId → List ReqId}

variable {q : QId} {xs ys : List ReqId} {x : ReqId}

theorem dequeue_next (h : Rep s L) (hl : L q = xs ++ x :: ys) {z : ReqId} (hz : z ∉ xs) :
    (dequeue s q xs.getLast? x).next z = s.next z := by
  have hq := h.queue q
  rw [hl] at hq
  exact (unlink_spec hq).2 z hz

theorem chain_behind (h : Rep s L) (hl : L q = xs ++ x :: ys) :
    Chain (dequeue s q xs.getLast? x).next (s.next x) ys := by
  have hq := h.queue q
  rw [hl] at hq
  refine hq.chain.next_eq.congr ?_
  intro z hz
  refine dequeue_next h hl ?_
  intro hzxs
  have hnd := hq.nodup
  rw [List.nodup_append] at hnd
  exact hnd.2.2 z hzxs z (List.mem_cons_of_mem x hz) rfl

structure Kept (b : Build) (I : State → (QId → List ReqId) → Prop) : Prop where
  rep : ∀ {s L}, I s L → Rep s L
  dequeue : ∀ {s L} {k : Kind} {i : Nat} {xs ys : List ReqId} {x : ReqId}, I s L →
    L (k, i) = xs ++ x :: ys →
    I (dequeue s (k, i) xs.getLast? x) (update L (k, i) (xs ++ ys))
  enqueue : ∀ {s L} {k : Kind} {i : Nat}, I s L → i < b.numQueues → ∀ req : Request,
    I (Lists.tick (enqueue s (k, i) req)) (update L (k, i) (L (k, i) ++ [s.clock]))
  tick : ∀ {s L}, I s L → I (tick s) L
  req : ∀ {s L}, I s L → ∀ req : ReqId → Request, I { s with req := req } L

theorem books_kept (b : Build) : Kept b (Books b) where
  rep h := h.toRep
  dequeue h hl := h.dequeue hl
  enqueue h hi req := h.enqueue hi req
  tick h := h.tick
  req h _ := h.congr rfl rfl rfl rfl rfl

theorem fdpLoop_kept {I : State → (QId → List ReqId) → Prop} (hI : Kept b I) (h : I s L)
    (hook : ReqId → Bool) (i : Nat) (info : MessageMatch) {n : Nat}
    {cur : Option ReqId} (hl : L (.posted, i) = xs ++ ys) (hc : Chain s.next cur ys) (hn : ys.length < n) :
    ∃ L', I (fdpLoop b hook i info n s xs.getLast? cur).1 L' := by
  induction ys generalizing s L xs cur n with
  | nil =>
    obtain rfl := hc
    cases n with
    | zero => exact absurd hn (Nat.not_lt_zero _)
    | succ n => exact ⟨L, h⟩
  | cons x ys ih =>
    obtain ⟨rfl, hys⟩ := hc
    cases n with
    | zero => exact absurd hn (Nat.not_lt_zero _)
    | succ n =>
      have hrep := hI.rep h
      rw [fdpLoop]
      split
      · have hd := hI.dequeue h hl
        have hx : x ∉ xs := by
          intro hx
          have hnd := (hrep.queue (.posted, i)).nodup
          rw [hl, List.nodup_append] at hnd
          exact hnd.2.2 x hx x (by simp) rfl
        split
        · refine ih hd (update_self _ _ _) ?_ (Nat.lt_of_succ_lt_succ hn)
          rw [dequeue_next hrep hl hx]
          exact chain_behind hrep hl
        · exact ⟨_, hd⟩
      · have hl' : L (.posted, i) = (xs ++ [x]) ++ ys := by
          rw [hl]
          simp
        have hlast : (xs ++ [x]).getLast? = some x := by simp
        have hrec := ih h hl' hys (Nat.lt_of_succ_lt_succ hn)
        rw [hlast] at hrec
        exact hrec

def countsHead (b : Build) (q : QId) : Bool := b.fg || q == (.posted, 0)

section
variable (h : Rep s L) (hl : L q = xs ++ x :: ys)
include h hl

theorem dequeueAndSetError_eq :
    dequeueAndSetError b s q xs.getLast? x =
      { dequeue s q xs.getLast? x with
        postedLength :=
          if xs = [] ∧ countsHead b q = true then s.postedLength - 1 else s.postedLength
        unexpectedLength := s.unexpectedLength } := by
  have hq := h.queue q
  rw [hl] at hq
  have hbehind := hq.chain.next_eq
  have hx : x ∉ xs ++ ys := by
    have hnd := hq.nodup
    rw [List.nodup_middle, List.nodup_cons] at hnd
    exact hnd.1
  have htail : (s.queue q).tail = some x ↔ s.next x = none := by
    rw [hq.tail]
    cases ys with
    | nil =>
      simp only [chain_nil] at hbehind
      simp [hbehind]
    | cons y ys =>
      have hne : (xs ++ x :: y :: ys).getLast? ≠ some x := by
        rw [List.getLast?_append_of_ne_nil _ (by simp), List.getLast?_cons_cons]
        intro hlast
        exact hx (List.mem_append_right xs (List.mem_of_getLast? hlast))
      rw [hbehind.1]
      exact ⟨fun hl => absurd hl hne, by rintro ⟨⟩⟩
  -- the head of another queue is another request
  have hsame : (s.queue q).head = some x →
      ((s.queue q).head = (s.queue (.posted, 0)).head ↔ q = (.posted, 0)) := by
    intro hhead
    constructor
    · intro he
      rw [hhead] at he
      refine h.disjoint q _ x (by rw [hl]; simp) ?_
      have hchain := (h.queue (.posted, 0)).chain
      cases hp : L (.posted, 0) with
      | nil =>
        rw [hp] at hchain
        rw [← he] at hchain
        cases hchain
      | cons y ys =>
        rw [hp] at hchain
        rw [← he] at hchain
        obtain ⟨hy, _⟩ := hchain
        cases hy
        simp
    · rintro rfl
      rfl
  cases xs with
  | nil =>
    have hhead : (s.queue q).head = some x := hq.chain.1
    have hcount : (b.fg = true ∨ (s.queue q).head = (s.queue (.posted, 0)).head) ↔
        countsHead b q = true := by
      rw [hsame hhead]
      simp [countsHead]
    simp only [dequeueAndSetError, dequeue, unlink, List.getLast?_nil, hhead, if_true, true_and, htail]
    rw [← hhead]
    simp only [hcount]
  | cons y xs =>
    have hhead : (s.queue q).head = some y := hq.chain.1
    have hne : ¬ (s.queue q).head = some x := by
      rw [hhead]
      rintro ⟨⟩
      simp at hx
    obtain ⟨z, hz⟩ : ∃ z, (y :: xs).getLast? = some z := by
      rw [← Option.isSome_iff_exists]
      simp
    simp only [dequeueAndSetError, dequeue, unlink, hz, hne, htail, false_and, if_false, List.cons_ne_nil]

theorem dequeueAndSetError_rep :
    Rep (dequeueAndSetError b s q xs.getLast? x) (update L q (xs ++ ys)) := by
  have heq := dequeueAndSetError_eq (b := b) h hl
  exact (h.dequeue hl).congr (by rw [heq]) (by rw [heq]) (by rw [heq])

theorem dequeueAndSetError_chain : Chain (dequeueAndSetError b s q xs.getLast? x).next (s.next x) ys := by
  rw [dequeueAndSetError_eq h hl]
  exact chain_behind h hl

end

theorem dequeueAndSetError_req (b : Build) (s : State) (q : QId) (prev : Option ReqId)
    (x : ReqId) : (dequeueAndSetError b s q prev x).req = s.req := rfl

structure Swept (b : Build) (p : Request → Bool) (q : QId) (s : State) (L : QId → List ReqId)
    (front : Nat) (l : List ReqId) (s' : State) : Prop where
  rep : Rep s' (update L q l)
  req : s'.req = s.req
  clock : s'.clock = s.clock
  postedLength : s'.postedLength =
    s.postedLength - BitVec.ofNat 32 (if countsHead b q = true then front else 0)
  unexpectedLength : s'.unexpectedLength = s.unexpectedLength

theorem sweepLoop_swept (h : Rep s L) (q : QId) (p : Request → Bool) {n : Nat} {cur : Option ReqId} (hl : L q = xs ++ ys) (hc : Chain s.next cur ys)
    (hn : ys.length < n) :
    Swept b p q s L (if xs = [] then (ys.takeWhile (fun x => p (s.req x))).length else 0)
      (xs ++ ys.filter (fun x => !p (s.req x))) (sweepLoop b q p n s xs.getLast? cur) := by
  induction ys generalizing s L xs cur n with
  | nil =>
    obtain rfl := hc
    cases n with
    | zero => exact absurd hn (Nat.not_lt_zero _)
    | succ n =>
      refine ⟨?_, rfl, rfl, by simp [sweepLoop], rfl⟩
      rw [List.append_nil] at hl
      rw [List.filter_nil, List.append_nil, ← hl, update_eq_self]
      exact h
  | cons x ys ih =>
    obtain ⟨rfl, hys⟩ := hc
    cases n with
    | zero => exact absurd hn (Nat.not_lt_zero _)
    | succ n =>
      rw [sweepLoop]
      by_cases hx : p (s.req x) = true
      · rw [if_pos hx]
        have heq := dequeueAndSetError_eq (b := b) h hl
        have hrep := dequeueAndSetError_rep (b := b) h hl
        have hchain := dequeueAndSetError_chain (b := b) h hl
        have hreq := dequeueAndSetError_req b s q xs.getLast? x
        generalize dequeueAndSetError b s q xs.getLast? x = s₁ at heq hrep hchain hreq ⊢
        have hrec := ih hrep (update_self _ _ _) hchain (Nat.lt_of_succ_lt_succ hn)
        rw [hreq] at hrec
        refine ⟨?_, hrec.req.trans hreq, ?_, ?_, ?_⟩
        · have hrep' := hrec.rep
          rw [update_idem] at hrep'
          rw [List.filter_cons_of_neg (by simp [hx])]
          exact hrep'
        · rw [hrec.clock, heq]
          rfl
        · have hwhile : (x :: ys).takeWhile (fun x => p (s.req x)) =
              x :: ys.takeWhile (fun x => p (s.req x)) := List.takeWhile_cons_of_pos hx
          rw [hrec.postedLength, hwhile, heq]
          cases xs with
          | nil =>
            cases countsHead b q with
            | false => simp
            | true =>
              simp only [and_self, if_true, List.length_cons, BitVec.ofNat_add]
              rw [BitVec.add_comm]
              exact sub_sub _ _ _
          | cons y xs => simp
        · rw [hrec.unexpectedLength, heq]
      · rw [if_neg hx]
        have hl' : L q = (xs ++ [x]) ++ ys := by
          rw [hl]
          simp
        have hlast : (xs ++ [x]).getLast? = some x := by simp
        have hwhile : (x :: ys).takeWhile (fun x => p (s.req x)) = [] := List.takeWhile_cons_of_neg hx
        have hrec := ih h hl' hys (Nat.lt_of_succ_lt_succ hn)
        rw [hlast] at hrec
        refine ⟨?_, hrec.req, hrec.clock, ?_, hrec.unexpectedLength⟩
        · have hrep := hrec.rep
          rw [List.append_assoc] at hrep
          rw [List.filter_cons_of_pos (by simp [hx])]
          exact hrep
        · rw [hrec.postedLength, hwhile]
          simp

theorem sweep_swept (h : Rep s L) (q : QId) (p : Request → Bool) :
    Swept b p q s L ((L q).takeWhile (fun x => p (s.req x))).length
      ((L q).filter (fun x => !p (s.req x))) (sweep b p s q) := by
  have hs := sweepLoop_swept (b := b) h q p (List.nil_append (L q)).symm (h.queue q).chain
    (h.length_lt q)
  rw [if_pos rfl, List.nil_append] at hs
  exact hs

theorem filter_eq_dropWhile {p : ReqId → Bool} {l : List ReqId}
    (h : ∀ x ∈ l.dropWhile p, p x = false) : l.filter (fun x => !p x) = l.dropWhile p := by
  have hfront : (l.takeWhile p).filter (fun x => !p x) = [] := by
    rw [List.filter_eq_nil_iff]
    intro x hx
    simp [List.mem_takeWhile_imp hx]
  have hrest : (l.dropWhile p).filter (fun x => !p x) = l.dropWhile p := by
    rw [List.filter_eq_self]
    intro x hx
    simp [h x hx]
  calc l.filter (fun x => !p x)
      = (l.takeWhile p ++ l.dropWhile p).filter (fun x => !p x) := by
        rw [List.takeWhile_append_dropWhile]
    _ = l.dropWhile p := by rw [List.filter_append, hfront, hrest, List.nil_append]

variable {p : Request → Bool}

section
variable (h : Books b s L)
include h

theorem sweep_posted_books {i : Nat} (hi : i < b.numQueues)
    (hfront : ∀ x ∈ (L (.posted, i)).dropWhile (fun x => p (s.req x)), p (s.req x) = false) :
    Books b (sweep b p s (.posted, i))
      (update L (.posted, i) ((L (.posted, i)).dropWhile (fun x => p (s.req x)))) := by
  have hs := sweep_swept (b := b) h.toRep (.posted, i) p
  have hcount : countsHead b (.posted, i) = true := by
    cases b with
    | plain =>
      have hzero : i = 0 := Nat.lt_one_iff.mp hi
      simp [countsHead, hzero]
    | fineGrain startrank nfg => rfl
  have htotal : total b (update L (.posted, i)
        ((L (.posted, i)).dropWhile (fun x => p (s.req x)))) .posted +
      ((L (.posted, i)).takeWhile (fun x => p (s.req x))).length = total b L .posted := by
    have hup := total_update (L := L)
      (l := (L (.posted, i)).dropWhile (fun x => p (s.req x))) (k := .posted) hi
    have hlen := congrArg List.length (List.takeWhile_append_dropWhile
      (p := fun x => p (s.req x)) (l := L (.posted, i)))
    rw [List.length_append] at hlen
    omega
  have hrep := hs.rep
  rw [filter_eq_dropWhile hfront] at hrep
  refine ⟨hrep, inRange_update h.inRange hi, ?_, ?_⟩
  · rw [hs.postedLength, if_pos hcount, h.postedLength]
    exact ofNat_sub_of_add htotal
  · rw [hs.unexpectedLength, total_update_of_ne (by simp)]
    exact h.unexpectedLength

theorem sweep_none_books (hnone : ∀ x ∈ L q, p (s.req x) = false) : Books b (sweep b p s q) L := by
  have hs := sweep_swept (b := b) h.toRep q p
  have hwhile : (L q).takeWhile (fun x => p (s.req x)) = [] := by
    cases hl : L q with
    | nil => rfl
    | cons x xs =>
      have hx := hnone x (by rw [hl]; simp)
      exact List.takeWhile_cons_of_neg (by simp [hx])
  have hfilter : (L q).filter (fun x => !p (s.req x)) = L q := by
    rw [List.filter_eq_self]
    intro x hx
    simp [hnone x hx]
  have hrep := hs.rep
  rw [hfilter, update_eq_self] at hrep
  refine ⟨hrep, h.inRange, ?_, ?_⟩
  · rw [hs.postedLength, hwhile, ← h.postedLength]
    simp
  · rw [hs.unexpectedLength]
    exact h.unexpectedLength

theorem sweepAll_none_books {k : Kind} (hnone : ∀ i < b.numQueues, ∀ x ∈ L (k, i), p (s.req x) = false) :
    Books b (sweepAll b k p s) L ∧ (sweepAll b k p s).req = s.req ∧
      (sweepAll b k p s).clock = s.clock := by
  have hgen : ∀ (js : List Nat), (∀ j ∈ js, j < b.numQueues) → ∀ s, Books b s L →
      (∀ i < b.numQueues, ∀ x ∈ L (k, i), p (s.req x) = false) →
      Books b (js.foldl (fun s i => sweep b p s (k, i)) s) L ∧
        (js.foldl (fun s i => sweep b p s (k, i)) s).req = s.req ∧
        (js.foldl (fun s i => sweep b p s (k, i)) s).clock = s.clock := by
    intro js
    induction js with
    | nil => exact fun _ s hs _ => ⟨hs, rfl, rfl⟩
    | cons j js ih =>
      intro hjs s hs hp
      have hswept := sweep_swept (b := b) hs.toRep (k, j) p
      have hbooks := sweep_none_books hs (hp j (hjs j (by simp)))
      obtain ⟨hrec, hreq, hclock⟩ := ih (fun j' hj' => hjs j' (by simp [hj'])) _ hbooks (by
        rw [hswept.req]
        exact hp)
      exact ⟨hrec, hreq.trans hswept.req, hclock.trans hswept.clock⟩
  exact hgen _ (fun j hj => List.mem_range.mp hj) s h hnone

theorem sweepAll_posted_books (hfront : ∀ i < b.numQueues,
      ∀ x ∈ (L (.posted, i)).dropWhile (fun x => p (s.req x)), p (s.req x) = false) :
    ∃ L', Books b (sweepAll b .posted p s) L' := by
  have hgen : ∀ (js : List Nat), js.Nodup → (∀ j ∈ js, j < b.numQueues) → ∀ s L, Books b s L →
      (∀ i ∈ js, ∀ x ∈ (L (.posted, i)).dropWhile (fun x => p (s.req x)), p (s.req x) = false) →
      ∃ L', Books b (js.foldl (fun s i => sweep b p s (.posted, i)) s) L' := by
    intro js
    induction js with
    | nil => exact fun _ _ s L hs _ => ⟨L, hs⟩
    | cons j js ih =>
      intro hnd hjs s L hs hp
      rw [List.nodup_cons] at hnd
      have hswept := sweep_swept (b := b) hs.toRep (.posted, j) p
      have hbooks := sweep_posted_books hs (hjs j (by simp)) (hp j (by simp))
      refine ih hnd.2 (fun j' hj' => hjs j' (by simp [hj'])) _ _ hbooks ?_
      -- the other queues are as they were
      intro i hi
      have hne : ((Kind.posted, i) : QId) ≠ (.posted, j) := by
        rintro ⟨⟩
        exact hnd.1 hi
      rw [update_of_ne hne, hswept.req]
      exact hp i (by simp [hi])
  exact hgen _ List.nodup_range (fun j hj => List.mem_range.mp hj) s L h
    (fun i hi => hfront i (List.mem_range.mp hi))

end

end Loops

def FrontOnly (b : Build) (p : Request → Bool) (s : State) : Prop :=
  ∀ i < b.numQueues, ∀ x ∈ (s.list (.posted, i)).dropWhile (fun x => p (s.req x)), p (s.req x) = false

/-- What the counters need of a call: nothing is cleaned from the unexpected queues, and from a
posted queue only requests at its front. -/
def Counted (b : Build) (w : World) : Op → Prop
  | .clean c =>
    (∀ i < b.numQueues, ∀ x ∈ w.state.list (.unexpected, i), cleans c (w.state.req x) = false) ∧
      FrontOnly b (cleans c) w.state
  | .completePosted usesVc => FrontOnly b (usesFailed usesVc) w.state
  | _ => True

instance (b : Build) (p : Request → Bool) (s : State) : Decidable (FrontOnly b p s) :=
  inferInstanceAs (Decidable (∀ i < b.numQueues, _))

instance (b : Build) (w : World) : (o : Op) → Decidable (Counted b w o)
  | .clean c => inferInstanceAs (Decidable (_ ∧ FrontOnly b (cleans c) w.state))
  | .completePosted usesVc => inferInstanceAs (Decidable (FrontOnly b (usesFailed usesVc) w.state))
  | .post _ _ _ _ _ _ => isTrue trivial
  | .arrive _ _ _ _ _ => isTrue trivial
  | .probe _ _ _ _ => isTrue trivial
  | .matchedProbe _ _ _ _ _ => isTrue trivial
  | .cancelSend _ _ => isTrue trivial
  | .cancelRecv _ _ => isTrue trivial

structure Accounts (b : Build) (s : State) : Prop where
  postedLength : s.postedLength = BitVec.ofNat 32 (total b s.list .posted)
  unexpectedLength : s.unexpectedLength = BitVec.ofNat 32 (total b s.list .unexpected)
  linked : ∀ q, IsQueue s.next (s.queue q) (s.list q)
  tail : ∀ q, (s.queue q).tail = none ↔ (s.queue q).head = none

variable {b : Build}

theorem queueIndex_lt {rank : BitVec 32} {i : Nat} (h : queueIndex b rank = .ok i) : i < b.numQueues := by
  cases b with
  | plain =>
    cases h
    exact Nat.one_pos
  | fineGrain startrank nfg =>
    simp only [queueIndex] at h
    split at h
    · rename_i hr
      cases h
      simp only [Build.numQueues]
      omega
    · cases h

variable {L : QId → List ReqId}

theorem call_kept {I : State → (QId → List ReqId) → Prop} (hI : Kept b I) {w : World}
    {s' : State} {o : Op} {ret : Ret} (h : I w.state L)
    (hclean : ∀ c, o = .clean c → ∃ L', I (cleanRecvq b c w.state) L')
    (hposted : ∀ usesVc, o = .completePosted usesVc →
      ∃ L', I (completePostedWithError b usesVc w.state) L')
    (hc : call b w.state o = .ok (s', ret)) : ∃ L', I (tick s') L' := by
  have hrep := hI.rep h
  cases o with
  | post source tag contextId me comm moribund =>
    obtain ⟨i, hi, ⟨xs, u, ys, hu, rfl, -⟩ | ⟨-, ⟨-, -, req, rfl⟩ | ⟨rfl, -⟩⟩⟩ := post_cases hrep hc
    · exact ⟨_, hI.tick (hI.req (hI.dequeue h hu.split) _)⟩
    · exact ⟨L, hI.tick (hI.req h _)⟩
    · exact ⟨_, hI.enqueue h (queueIndex_lt hi) _⟩
  | arrive sent flag sreqId hook revoked =>
    obtain ⟨i, hi, hk⟩ := bind_eq_ok.mp hc
    obtain ⟨L', hL'⟩ := fdpLoop_kept hI h hook i
      { onWire sent flag with tag := workingTag (onWire sent flag).tag }
      (List.nil_append _).symm (hrep.queue (.posted, i)).chain (hrep.length_lt (.posted, i))
    rw [List.getLast?_nil] at hL'
    split at hk
    · rename_i s₁ x hs₁
      rw [hs₁] at hL'
      cases hk
      exact ⟨L', hI.tick hL'⟩
    · rename_i s₁ hs₁
      rw [hs₁] at hL'
      split at hk
      · cases hk
        exact ⟨L', hI.tick hL'⟩
      · cases hk
        exact ⟨_, hI.enqueue hL' (queueIndex_lt hi) _⟩
  | probe source tag contextId me =>
    obtain rfl := probe_cases hc
    exact ⟨L, hI.tick h⟩
  | matchedProbe source tag contextId me comm =>
    obtain ⟨i, hi, ⟨xs, u, ys, hu, rfl, -⟩ | ⟨rfl, -⟩⟩ := matchedProbe_cases hrep hc
    · exact ⟨_, hI.tick (hI.req (hI.dequeue h hu.split) _)⟩
    · exact ⟨L, hI.tick h⟩
  | cancelSend sreqId info =>
    obtain ⟨i, hi, ⟨xs, u, ys, hl, rfl, -⟩ | ⟨rfl, -⟩⟩ := cancelSend_cases hrep hc
    · exact ⟨_, hI.tick (hI.dequeue h hl)⟩
    · exact ⟨L, hI.tick h⟩
  | cancelRecv rreq hook =>
    obtain ⟨i, hi, ⟨xs, ys, hl, rfl, -⟩ | ⟨rfl, -⟩⟩ := cancelRecv_cases hrep hc
    · exact ⟨_, hI.tick (hI.dequeue h hl)⟩
    · exact ⟨L, hI.tick h⟩
  | clean c =>
    cases hc
    obtain ⟨L', hL'⟩ := hclean c rfl
    exact ⟨L', hI.tick hL'⟩
  | completePosted usesVc =>
    cases hc
    obtain ⟨L', hL'⟩ := hposted usesVc rfl
    exact ⟨L', hI.tick hL'⟩

theorem call_books {w : World} {s' : State} {o : Op} {ret : Ret}
    (h : Books b w.state L) (ho : Counted b w o) (hc : call b w.state o = .ok (s', ret)) :
    ∃ L', Books b (tick s') L' := by
  refine call_kept (books_kept b) h ?_ ?_ hc
  · rintro c rfl
    obtain ⟨hnone, hfront⟩ := ho
    rw [FrontOnly] at hfront
    rw [h.toRep.list_eq] at hnone hfront
    obtain ⟨hbooks, hreq, _⟩ := sweepAll_none_books h hnone
    rw [← hreq] at hfront
    exact sweepAll_posted_books hbooks hfront
  · rintro usesVc rfl
    have hfront : FrontOnly b (usesFailed usesVc) w.state := ho
    rw [FrontOnly, h.toRep.list_eq] at hfront
    exact sweepAll_posted_books h hfront

theorem Books.accounts {s : State} (h : Books b s L) : Accounts b s := by
  have hlist := h.toRep.list_eq
  refine ⟨?_, ?_, ?_, ?_⟩
  · rw [hlist]
    exact h.postedLength
  · rw [hlist]
    exact h.unexpectedLength
  · rw [hlist]
    exact h.queue
  · intro q
    have hq := h.queue q
    rw [hq.tail, List.getLast?_eq_none_iff]
    have hchain := hq.chain
    cases hl : L q with
    | nil =>
      rw [hl] at hchain
      exact ⟨fun _ => hchain, fun _ => rfl⟩
    | cons x xs =>
      rw [hl] at hchain
      rw [hchain.1]
      simp

/-- In every run in which cleaning finds nothing in the unexpected queues, and error handling
removes posted requests from the front only, counters, heads and tails are right. -/
theorem accounts_of_counted (b : Build) (ops : List Op) (w : World)
    (hops : Along (step b) (Counted b) World.init ops)
    (hrun : run (step b) World.init ops = .ok w) : Accounts b w.state := by
  have hinv : ∃ L, Books b w.state L := by
    refine run_invariant (I := fun w => ∃ L, Books b w.state L) ?_ ⟨_, init_books b⟩ hops hrun
    intro w o w' hI ho hs
    obtain ⟨L, hL⟩ := hI
    obtain ⟨s', ret, hc, rfl⟩ := step_cases hs
    exact call_books hL ho hc
  obtain ⟨L, hL⟩ := hinv
  exact hL.accounts

theorem accounts_of_counted_front_failed :
    ∃ w, run (step (.fineGrain 0 1)) World.init
        [.post 1 5 16 0 0 false, .post 2 5 16 0 0 false,
          .completePosted (fun _ rank => rank == 1),
          .arrive ⟨6, 2, 16, 0⟩ .none 7 (fun _ => false) false] = .ok w ∧
      w.state.list (.posted, 0) = [1] ∧ w.state.list (.unexpected, 0) = [3] ∧
      Accounts (.fineGrain 0 1) w.state := by
  have hseen : (run (step (.fineGrain 0 1)) World.init
      [.post 1 5 16 0 0 false, .post 2 5 16 0 0 false,
        .completePosted (fun _ rank => rank == 1),
        .arrive ⟨6, 2, 16, 0⟩ .none 7 (fun _ => false) false]).toOption.map
      (fun w => (w.state.list (.posted, 0), w.state.list (.unexpected, 0))) =
        some ([1], [3]) := by decide +kernel
  obtain ⟨w, hw, hlists⟩ := ok_of_observed hseen
  obtain ⟨hp, hu⟩ := Prod.mk.inj hlists
  exact ⟨w, hw, hp, hu, accounts_of_counted _ _ w (by decide +kernel) hw⟩

theorem failed_behind_head_not_counted :
    ∃ w, run (step (.fineGrain 0 1)) World.init
        [.post 1 5 16 0 0 false, .post 2 5 16 0 0 false,
          .completePosted (fun _ rank => rank == 2)] = .ok w ∧
      w.state.list (.posted, 0) = [0] ∧ w.state.postedLength = 2#32 ∧
      ¬ Accounts (.fineGrain 0 1) w.state := by
  have hseen : (run (step (.fineGrain 0 1)) World.init
      [.post 1 5 16 0 0 false, .post 2 5 16 0 0 false,
        .completePosted (fun _ rank => rank == 2)]).toOption.map
      (fun w => (w.state.list (.posted, 0), w.state.postedLength)) =
        some ([0], 2#32) := by decide +kernel
  obtain ⟨w, hw, hboth⟩ := ok_of_observed hseen
  obtain ⟨hp, hlen⟩ := Prod.mk.inj hboth
  refine ⟨w, hw, hp, hlen, ?_⟩
  intro hacc
  have hcount := hacc.postedLength
  simp [hlen, total, Build.numQueues, hp] at hcount

end FgMpi.Recvq.Accounting
