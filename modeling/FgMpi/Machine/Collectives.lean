import FgMpi.Machine.Runs

/-! Programs of messages and broadcasts. -/

namespace FgMpi.Machine.Collectives
open Function (update update_of_ne update_self)

inductive Act (κ P : Type)
  | send (k : κ) (dst : P)
  | recv (k : κ) (src : P)
  | bcast (k : κ) (root : P)
deriving DecidableEq

namespace Act
variable {κ P : Type}

def Sends (p : P) : Act κ P → Prop
  | send _ _ => True
  | recv _ _ => False
  | bcast _ root => p = root

def Receives (p : P) : Act κ P → Prop
  | send _ _ => False
  | recv _ _ => True
  | bcast _ root => p ≠ root

def source (p : P) : Act κ P → P
  | send _ _ => p
  | recv _ src => src
  | bcast _ root => root

end Act

structure State (κ P α : Type) where
  todo : P → List (Act κ P)
  inside : P → Bool
  buffer : P → α
  chan : κ → P → P → List α
  posted : κ → Option α

inductive Event (P : Type)
  | call (p : P)
  | finish (p : P)
deriving DecidableEq

section Semantics
variable {κ P α : Type} [DecidableEq κ] [DecidableEq P]

def init (prog : P → List (Act κ P)) (buffer : P → α) : State κ P α where
  todo := prog
  inside := fun _ => false
  buffer := buffer
  chan := fun _ _ _ => []
  posted := fun _ => none

def put (chan : κ → P → P → List α) (k : κ) (src dst : P) (msgs : List α) : κ → P → P → List α :=
  fun k' src' dst' => if k' = k ∧ src' = src ∧ dst' = dst then msgs else chan k' src' dst'

def contribute (s : State κ P α) (p : P) : Act κ P → State κ P α
  | .send k dst => { s with chan := put s.chan k p dst (s.chan k p dst ++ [s.buffer p]) }
  | .recv _ _ => s
  | .bcast k root =>
    if p = root then { s with posted := update s.posted k (some (s.buffer p)) } else s

/-- What a process takes when it finishes; `none` if there is nothing to take. -/
def collect (s : State κ P α) (p : P) : Act κ P → Option (State κ P α)
  | .send _ _ => some s
  | .recv k src =>
    match s.chan k src p with
    | [] => none
    | v :: vs =>
      some { s with chan := put s.chan k src p vs, buffer := update s.buffer p v }
  | .bcast k root =>
    if p = root then some s
    else (s.posted k).map fun v => { s with buffer := update s.buffer p v }

def enter (s : State κ P α) (p : P) : State κ P α :=
  { s with inside := update s.inside p true }

def exit (s : State κ P α) (p : P) : State κ P α :=
  { s with
    todo := update s.todo p (s.todo p).tail
    inside := update s.inside p false }

def step (s : State κ P α) : Event P → Except Unit (State κ P α)
  | .call p =>
    match s.todo p, s.inside p with
    | a :: _, false => .ok (enter (contribute s p a) p)
    | _, _ => .error ()
  | .finish p =>
    match s.todo p, s.inside p with
    | a :: _, true =>
      match collect s p a with
      | some t => .ok (exit t p)
      | none => .error ()
    | _, _ => .error ()

def ahead (s : State κ P α) (p : P) : List (Act κ P) :=
  bif s.inside p then (s.todo p).tail else s.todo p

def Together (members : κ → List P) (s : State κ P α) (p : P) : Act κ P → Prop
  | .send k dst => .recv k p ∉ ahead s dst
  | .recv k src => .send k p ∉ ahead s src
  | .bcast k root => ∀ q ∈ members k, .bcast k root ∉ ahead s q

def Finished (s : State κ P α) : Prop := ∀ p, s.todo p = []

/-- The programs fit together, and whoever sends has received before, except for the origin. -/
structure Agreed (members : κ → List P) (prog : P → List (Act κ P)) (origin : P)
    (level : Act κ P → Nat) : Prop where
  ordered : ∀ p, (prog p).Pairwise fun a b => level a < level b
  sent : ∀ {p k dst}, .send k dst ∈ prog p → .recv k p ∈ prog dst
  received : ∀ {p k src}, .recv k src ∈ prog p → .send k p ∈ prog src
  balanced : ∀ {p k dst}, .send k dst ∈ prog p → level (.recv k p) = level (.send k dst)
  member : ∀ {p k root}, .bcast k root ∈ prog p →
    root ∈ members k ∧ ∀ q ∈ members k, .bcast k root ∈ prog q
  joined : ∀ {p k root}, .bcast k root ∈ prog p → p ∈ members k
  once : ∀ {p k root root'}, .bcast k root ∈ prog p → .bcast k root' ∈ prog p → root = root'
  informed : ∀ {p a}, a ∈ prog p → a.Sends p → p = origin ∨ ∃ b ∈ prog p, b.Receives p ∧ level b < level a

end Semantics

section Levels
variable {κ P α : Type} {members : κ → List P} {prog : P → List (Act κ P)} {origin : P}
variable {level : Act κ P → Nat} {s : State κ P α} {p : P} {a : Act κ P} {rest : List (Act κ P)}

section
variable (h : Agreed members prog origin level) (hs : s.todo p <:+ prog p)
include h hs

theorem suffix_levels : (s.todo p).Pairwise fun a b => level a < level b := (h.ordered p).sublist hs.sublist

theorem done_lt {b : Act κ P}
    (hb : b ∈ prog p) (hdone : b ∉ s.todo p) (ha : a ∈ s.todo p) : level b < level a := by
  obtain ⟨pre, hpre⟩ := hs
  have hpair := h.ordered p
  rw [← hpre, List.pairwise_append] at hpair
  rw [← hpre, List.mem_append] at hb
  exact hpair.2.2 b (hb.resolve_right hdone) a ha

theorem head_le (htodo : s.todo p = a :: rest) {b : Act κ P} (hb : b ∈ s.todo p) : level a ≤ level b := by
  have hpair := suffix_levels h hs
  rw [htodo] at hpair hb
  rcases List.mem_cons.mp hb with rfl | hb
  · exact Nat.le_refl _
  · exact Nat.le_of_lt ((List.pairwise_cons.mp hpair).1 b hb)

theorem head_notMem (htodo : s.todo p = a :: rest) : a ∉ rest := by
  have hpair := suffix_levels h hs
  rw [htodo] at hpair
  intro hmem
  exact Nat.lt_irrefl _ ((List.pairwise_cons.mp hpair).1 a hmem)

end

theorem mem_prog (hs : s.todo p <:+ prog p) (ha : a ∈ s.todo p) : a ∈ prog p := hs.subset ha

end Levels

section Invariant
variable {κ P α : Type}
variable {members : κ → List P} {prog : P → List (Act κ P)} {origin : P} {level : Act κ P → Nat}
variable {data : α} {s t : State κ P α} {p : P} {a : Act κ P} {rest : List (Act κ P)}

/-- The message has been sent and not been received. -/
def Transit (prog : P → List (Act κ P)) (s : State κ P α) (k : κ) (p dst : P) : Prop :=
  .send k dst ∈ prog p ∧ .send k dst ∉ ahead s p ∧ .recv k p ∈ s.todo dst

structure Inv (prog : P → List (Act κ P)) (origin : P) (data : α) (s : State κ P α) : Prop where
  suffix : ∀ p, s.todo p <:+ prog p
  inside : ∀ p, s.inside p = true → s.todo p ≠ []
  holds : ∀ p, (p = origin ∨ ∃ b ∈ prog p, b.Receives p ∧ b ∉ s.todo p) → s.buffer p = data
  chan : ∀ k p dst, (Transit prog s k p dst ∧ s.chan k p dst = [data]) ∨
    (¬ Transit prog s k p dst ∧ s.chan k p dst = [])
  received : ∀ k p dst, .recv k p ∈ prog dst → .recv k p ∉ s.todo dst → .send k dst ∉ ahead s p
  postedBy : ∀ k v, s.posted k = some v →
    v = data ∧ ∃ root, .bcast k root ∈ prog root ∧ .bcast k root ∉ ahead s root
  posted : ∀ k root, .bcast k root ∈ prog root → .bcast k root ∉ ahead s root → s.posted k = some data

theorem init_inv (buffer : P → α) (h : Agreed members prog origin level) :
    Inv prog origin (buffer origin) (init prog buffer) where
  suffix _ := List.suffix_rfl
  inside _ h := (nomatch h)
  holds p hp := by
    rcases hp with rfl | ⟨b, hb, -, hnot⟩
    · rfl
    · exact absurd hb hnot
  chan k p dst := .inr ⟨fun ⟨hmem, hnot, _⟩ => hnot hmem, rfl⟩
  received k p dst hmem hnot := absurd hmem hnot
  postedBy _ _ h := (nomatch h)
  posted k root hmem hnot := absurd hmem hnot

section
variable (h : Agreed members prog origin level)
include h

theorem below_done (hs : s.todo p <:+ prog p)
    (ha : a ∈ prog p) (hcalled : a ∉ ahead s p) {b : Act κ P} (hlt : level b < level a) :
    b ∉ s.todo p := by
  intro hb
  by_cases hmem : a ∈ s.todo p
  · have htodo : ∃ rest, s.todo p = a :: rest := by
      cases hlist : s.todo p with
      | nil => rw [hlist] at hmem; exact nomatch hmem
      | cons x rest =>
        rw [hlist] at hmem
        unfold ahead at hcalled
        rw [hlist] at hcalled
        rcases List.mem_cons.mp hmem with rfl | hrest
        · exact ⟨rest, rfl⟩
        · refine absurd ?_ hcalled
          cases s.inside p
          · exact hmem
          · exact hrest
    obtain ⟨rest, htodo⟩ := htodo
    have hle := head_le h hs htodo hb
    omega
  · have hlt' := done_lt h hs ha hmem hb
    omega

section
variable (hinv : Inv prog origin data s)
include hinv

theorem sender_holds
    (ha : a ∈ prog p) (hsends : a.Sends p) (hcalled : a ∉ ahead s p) : s.buffer p = data := by
  refine hinv.holds p ((h.informed ha hsends).imp_right ?_)
  rintro ⟨b, hb, hrecv, hlt⟩
  exact ⟨b, hb, hrecv, below_done h (hinv.suffix p) ha hcalled hlt⟩

theorem caller_holds (htodo : s.todo p = a :: rest) (hsends : a.Sends p) : s.buffer p = data := by
  have hmem : a ∈ s.todo p := by
    rw [htodo]
    exact List.mem_cons_self
  refine hinv.holds p ((h.informed (mem_prog (hinv.suffix p) hmem) hsends).imp_right ?_)
  rintro ⟨b, hb, hrecv, hlt⟩
  refine ⟨b, hb, hrecv, fun hleft => ?_⟩
  have hle := head_le h (hinv.suffix p) htodo hleft
  omega

theorem lowest_called {n : Nat} (hlow : ∀ q b rest, s.todo q = b :: rest → n ≤ level b)
    (hin : ∀ q b rest, s.todo q = b :: rest → level b = n → s.inside q = true) {q : P}
    {b : Act κ P} (hb : level b = n) : b ∉ ahead s q := by
  intro hahead
  cases htodo : s.todo q with
  | nil =>
    rw [ahead, htodo] at hahead
    cases hi : s.inside q <;> rw [hi] at hahead <;> exact nomatch hahead
  | cons x rest =>
    have hpair := suffix_levels h (hinv.suffix q)
    rw [htodo, List.pairwise_cons] at hpair
    have hx := hlow q x rest htodo
    by_cases hxn : level x = n
    · rw [ahead, hin q x rest htodo hxn, htodo] at hahead
      have hlt := hpair.1 b hahead
      omega
    · have hmem : b ∈ x :: rest := by
        rw [ahead, htodo] at hahead
        cases hi : s.inside q with
        | false =>
          rw [hi] at hahead
          exact hahead
        | true =>
          rw [hi] at hahead
          exact List.mem_cons_of_mem _ hahead
      rcases List.mem_cons.mp hmem with rfl | hrest
      · exact hxn hb
      · have hlt := hpair.1 b hrest
        omega

end

end

section Steps
variable [DecidableEq κ] [DecidableEq P]

theorem put_same (chan : κ → P → P → List α) (k : κ) (src dst : P) (msgs : List α) :
    put chan k src dst msgs k src dst = msgs := if_pos ⟨rfl, rfl, rfl⟩

theorem put_other (chan : κ → P → P → List α) {k k' : κ} {src src' dst dst' : P} (msgs : List α)
    (h : ¬ (k' = k ∧ src' = src ∧ dst' = dst)) :
    put chan k src dst msgs k' src' dst' = chan k' src' dst' := if_neg h

theorem contribute_todo (s : State κ P α) (p : P) (a : Act κ P) :
    (contribute s p a).todo = s.todo ∧ (contribute s p a).inside = s.inside ∧
      (contribute s p a).buffer = s.buffer := by
  cases a with
  | send k dst => exact ⟨rfl, rfl, rfl⟩
  | recv k src => exact ⟨rfl, rfl, rfl⟩
  | bcast k root =>
    unfold contribute
    dsimp only
    split <;> exact ⟨rfl, rfl, rfl⟩

theorem ahead_call (htodo : s.todo p = a :: rest) (hout : s.inside p = false) :
    ahead s p = a :: rest ∧ ahead (enter (contribute s p a) p) p = rest ∧
      ∀ q ≠ p, ahead (enter (contribute s p a) p) q = ahead s q := by
  obtain ⟨ht, hi, -⟩ := contribute_todo s p a
  refine ⟨?_, ?_, fun q hq => ?_⟩
  · rw [ahead, hout, htodo]
    rfl
  · rw [ahead, enter]
    dsimp only
    rw [update_self, ht, htodo]
    rfl
  · rw [ahead, enter]
    dsimp only
    rw [update_of_ne hq, ht, hi]
    rfl

section
variable (h : Agreed members prog origin level) (hinv : Inv prog origin data s) (htodo : s.todo p = a :: rest)
variable (hout : s.inside p = false)
include h hinv htodo hout

theorem mem_ahead_call (q : P) (b : Act κ P) :
    b ∈ ahead (enter (contribute s p a) p) q ↔ b ∈ ahead s q ∧ ¬ (q = p ∧ b = a) := by
  obtain ⟨hbefore, hafter, hother⟩ := ahead_call htodo hout
  by_cases hq : q = p
  · subst hq
    have hnot := head_notMem h (hinv.suffix q) htodo
    rw [hbefore, hafter, List.mem_cons]
    constructor
    · intro hb
      refine ⟨.inr hb, ?_⟩
      rintro ⟨-, rfl⟩
      exact hnot hb
    · rintro ⟨rfl | hb, hne⟩
      · exact absurd ⟨rfl, rfl⟩ hne
      · exact hb
  · rw [hother q hq]
    simp [hq]

theorem call_chan (k : κ) (q dst : P) :
    (Transit prog (enter (contribute s p a) p) k q dst ∧ (contribute s p a).chan k q dst = [data]) ∨
      (¬ Transit prog (enter (contribute s p a) p) k q dst ∧
        (contribute s p a).chan k q dst = []) := by
  have hmem : a ∈ s.todo p := by
    rw [htodo]
    exact List.mem_cons_self
  have hprog := mem_prog (hinv.suffix p) hmem
  have htransit : Transit prog (enter (contribute s p a) p) k q dst ↔
      .send k dst ∈ prog q ∧ (.send k dst ∈ ahead s q → q = p ∧ .send k dst = a) ∧
        .recv k q ∈ s.todo dst := by
    rw [Transit, mem_ahead_call h hinv htodo hout, not_and, not_not]
    change _ ∧ _ ∧ _ ∈ (contribute s p a).todo dst ↔ _
    rw [(contribute_todo s p a).1]
  rw [htransit]
  by_cases hthis : q = p ∧ Act.send k dst = a
  · obtain ⟨rfl, rfl⟩ := hthis
    have hbuf := caller_holds h hinv htodo trivial
    have hahead : Act.send k dst ∈ ahead s q := by
      rw [(ahead_call htodo hout).1]
      exact List.mem_cons_self
    have hrecv : Act.recv k q ∈ s.todo dst := by
      by_contra hnot
      exact hinv.received k q dst (h.sent hprog) hnot hahead
    obtain ⟨⟨-, hnot, -⟩, -⟩ | ⟨-, hempty⟩ := hinv.chan k q dst
    · exact absurd hahead hnot
    · refine .inl ⟨⟨hprog, fun _ => ⟨rfl, rfl⟩, hrecv⟩, ?_⟩
      rw [contribute]
      dsimp only
      rw [put_same, hempty, hbuf]
      rfl
  · have hchan : (contribute s p a).chan k q dst = s.chan k q dst := by
      cases a with
      | send k' dst' =>
        refine put_other _ _ ?_
        rintro ⟨rfl, rfl, rfl⟩
        exact hthis ⟨rfl, rfl⟩
      | recv k' src => rfl
      | bcast k' root =>
        unfold contribute
        dsimp only
        split <;> rfl
    have hsame : (.send k dst ∈ ahead s q → q = p ∧ .send k dst = a) ↔ .send k dst ∉ ahead s q :=
      ⟨fun himp hin => hthis (himp hin), fun hnot hin => absurd hin hnot⟩
    rw [hchan, hsame]
    exact hinv.chan k q dst

theorem call_inv : Inv prog origin data (enter (contribute s p a) p) := by
  obtain ⟨ht, hi, hb⟩ := contribute_todo s p a
  have hahead := mem_ahead_call h hinv htodo hout
  refine ⟨?_, ?_, ?_, ?_, ?_, ?_, ?_⟩
  · intro q
    change (contribute s p a).todo q <:+ prog q
    rw [ht]
    exact hinv.suffix q
  · intro q hq
    change (contribute s p a).todo q ≠ []
    change update (contribute s p a).inside p true q = true at hq
    rw [ht]
    by_cases hqp : q = p
    · rw [hqp, htodo]
      exact List.cons_ne_nil _ _
    · rw [update_of_ne hqp, hi] at hq
      exact hinv.inside q hq
  · intro q hq
    change (contribute s p a).buffer q = data
    change q = origin ∨ (∃ b ∈ prog q, b.Receives q ∧ b ∉ (contribute s p a).todo q) at hq
    rw [ht] at hq
    rw [hb]
    exact hinv.holds q hq
  · intro k q dst
    exact call_chan h hinv htodo hout k q dst
  · intro k q dst hmem hnot
    change _ ∉ (contribute s p a).todo dst at hnot
    rw [ht] at hnot
    rw [hahead]
    intro hand
    exact hinv.received k q dst hmem hnot hand.1
  · intro k v hv
    change (contribute s p a).posted k = some v at hv
    have hold : s.posted k = some v → v = data ∧ ∃ root, .bcast k root ∈ prog root ∧
        .bcast k root ∉ ahead (enter (contribute s p a) p) root := by
      intro hposted
      obtain ⟨hdata, root, hroot, hcalled⟩ := hinv.postedBy k v hposted
      exact ⟨hdata, root, hroot, fun hleft => hcalled ((hahead root _).mp hleft).1⟩
    cases a with
    | send k' dst => exact hold hv
    | recv k' src => exact hold hv
    | bcast k' root =>
      rw [contribute] at hv
      split at hv
      · rename_i hroot
        subst hroot
        dsimp only at hv
        by_cases hk : k = k'
        · subst hk
          rw [update_self, caller_holds h hinv htodo rfl] at hv
          have hmem : Act.bcast k p ∈ s.todo p := by
            rw [htodo]
            exact List.mem_cons_self
          exact ⟨(Option.some.inj hv).symm, p, mem_prog (hinv.suffix p) hmem,
            fun hleft => ((hahead p _).mp hleft).2 ⟨rfl, rfl⟩⟩
        · rw [update_of_ne hk] at hv
          exact hold hv
      · exact hold hv
  · intro k root hmem hnot
    change (contribute s p a).posted k = some data
    rw [hahead] at hnot
    by_cases hthis : root = p ∧ Act.bcast k root = a
    · obtain ⟨rfl, rfl⟩ := hthis
      rw [contribute, if_pos rfl]
      dsimp only
      rw [update_self, caller_holds h hinv htodo rfl]
    · have hold := hinv.posted k root hmem fun hand => hnot ⟨hand, hthis⟩
      cases a with
      | send k' dst => exact hold
      | recv k' src => exact hold
      | bcast k' root' =>
        rw [contribute]
        split
        · rename_i hroot
          dsimp only
          by_cases hk : k = k'
          · subst hk
            rw [update_self, caller_holds h hinv htodo hroot]
          · rw [update_of_ne hk]
            exact hold
        · exact hold

end

theorem collect_todo (hcollect : collect s p a = some t) : t.todo = s.todo ∧ t.inside = s.inside := by
  cases a with
  | send k dst =>
    obtain rfl := Option.some.inj hcollect
    exact ⟨rfl, rfl⟩
  | recv k src =>
    rw [collect] at hcollect
    split at hcollect
    · exact nomatch hcollect
    · obtain rfl := Option.some.inj hcollect
      exact ⟨rfl, rfl⟩
  | bcast k root =>
    rw [collect] at hcollect
    split at hcollect
    · obtain rfl := Option.some.inj hcollect
      exact ⟨rfl, rfl⟩
    · obtain ⟨v, -, rfl⟩ := Option.map_eq_some_iff.mp hcollect
      exact ⟨rfl, rfl⟩

theorem collect_recv {k : κ} {src : P} (hinv : Inv prog origin data s)
    (hcollect : collect s p (.recv k src) = some t) :
    Transit prog s k src p ∧ t = { s with
      chan := put s.chan k src p [], buffer := update s.buffer p data } := by
  rw [collect] at hcollect
  split at hcollect
  · exact nomatch hcollect
  · rename_i v vs hchan
    obtain rfl := Option.some.inj hcollect
    obtain ⟨htransit, heq⟩ | ⟨-, heq⟩ := hinv.chan k src p
    · rw [hchan] at heq
      obtain ⟨rfl, rfl⟩ := List.cons.inj heq
      exact ⟨htransit, rfl⟩
    · rw [hchan] at heq
      exact nomatch heq

theorem collect_spec (hinv : Inv prog origin data s) (hcollect : collect s p a = some t) :
    t.posted = s.posted ∧ (∀ q, t.buffer q = s.buffer q ∨ q = p ∧ t.buffer q = data) ∧
      (a.Receives p → t.buffer p = data) := by
  cases a with
  | send k dst =>
    obtain rfl := Option.some.inj hcollect
    exact ⟨rfl, fun q => .inl rfl, fun hr => nomatch hr⟩
  | recv k src =>
    obtain ⟨-, rfl⟩ := collect_recv hinv hcollect
    refine ⟨rfl, fun q => ?_, fun _ => update_self ..⟩
    by_cases hq : q = p
    · subst hq
      exact .inr ⟨rfl, update_self ..⟩
    · exact .inl (update_of_ne hq ..)
  | bcast k root =>
    rw [collect] at hcollect
    split at hcollect
    · rename_i hroot
      obtain rfl := Option.some.inj hcollect
      exact ⟨rfl, fun q => .inl rfl, fun hr => absurd hroot hr⟩
    · obtain ⟨v, hposted, rfl⟩ := Option.map_eq_some_iff.mp hcollect
      obtain ⟨rfl, -⟩ := hinv.postedBy k v hposted
      refine ⟨rfl, fun q => ?_, fun _ => update_self ..⟩
      by_cases hq : q = p
      · subst hq
        exact .inr ⟨rfl, update_self ..⟩
      · exact .inl (update_of_ne hq ..)

theorem ahead_finish (hcollect : collect s p a = some t)
    (hin : s.inside p = true) (q : P) : ahead (exit t p) q = ahead s q := by
  obtain ⟨ht, hi⟩ := collect_todo hcollect
  unfold ahead exit
  dsimp only
  by_cases hq : q = p
  · subst hq
    rw [update_self, update_self, hin, ht]
    rfl
  · rw [update_of_ne hq, update_of_ne hq, ht, hi]

section
variable (h : Agreed members prog origin level) (hinv : Inv prog origin data s) (htodo : s.todo p = a :: rest)
include h hinv htodo

theorem mem_todo_finish (hcollect : collect s p a = some t) (q : P) (b : Act κ P) :
    b ∈ (exit t p).todo q ↔ b ∈ s.todo q ∧ ¬ (q = p ∧ b = a) := by
  obtain ⟨ht, -⟩ := collect_todo hcollect
  change b ∈ update t.todo p (t.todo p).tail q ↔ _
  rw [ht]
  by_cases hq : q = p
  · subst hq
    have hnot := head_notMem h (hinv.suffix q) htodo
    rw [update_self, htodo, List.tail_cons, List.mem_cons]
    constructor
    · intro hb
      refine ⟨.inr hb, ?_⟩
      rintro ⟨-, rfl⟩
      exact hnot hb
    · rintro ⟨rfl | hb, hne⟩
      · exact absurd ⟨rfl, rfl⟩ hne
      · exact hb
  · rw [update_of_ne hq]
    simp [hq]

theorem finish_chan (hin : s.inside p = true) (hcollect : collect s p a = some t) (k : κ) (q dst : P) :
    (Transit prog (exit t p) k q dst ∧ t.chan k q dst = [data]) ∨
      (¬ Transit prog (exit t p) k q dst ∧ t.chan k q dst = []) := by
  have htransit : Transit prog (exit t p) k q dst ↔
      Transit prog s k q dst ∧ ¬ (dst = p ∧ .recv k q = a) := by
    rw [Transit, mem_todo_finish h hinv htodo hcollect, ahead_finish hcollect hin, Transit]
    tauto
  rw [htransit]
  by_cases hthis : dst = p ∧ Act.recv k q = a
  · obtain ⟨rfl, rfl⟩ := hthis
    obtain ⟨-, rfl⟩ := collect_recv hinv hcollect
    exact .inr ⟨fun hand => hand.2 ⟨rfl, rfl⟩, put_same ..⟩
  · have hchan : t.chan k q dst = s.chan k q dst := by
      cases a with
      | send k' dst' =>
        obtain rfl := Option.some.inj hcollect
        rfl
      | recv k' src =>
        obtain ⟨-, rfl⟩ := collect_recv hinv hcollect
        refine put_other _ _ ?_
        rintro ⟨rfl, rfl, rfl⟩
        exact hthis ⟨rfl, rfl⟩
      | bcast k' root =>
        rw [collect] at hcollect
        split at hcollect
        · obtain rfl := Option.some.inj hcollect
          rfl
        · obtain ⟨v, -, rfl⟩ := Option.map_eq_some_iff.mp hcollect
          rfl
    have hsame : Transit prog s k q dst ∧ ¬ (dst = p ∧ .recv k q = a) ↔ Transit prog s k q dst :=
      and_iff_left hthis
    rw [hchan, hsame]
    exact hinv.chan k q dst

theorem finish_inv (hin : s.inside p = true) (hcollect : collect s p a = some t) :
    Inv prog origin data (exit t p) := by
  obtain ⟨ht, hi⟩ := collect_todo hcollect
  obtain ⟨hp, hbuf, hrecv⟩ := collect_spec hinv hcollect
  have hahead := ahead_finish hcollect hin
  have hmem := mem_todo_finish h hinv htodo hcollect
  refine ⟨?_, ?_, ?_, ?_, ?_, ?_, ?_⟩
  · intro q
    change update t.todo p (t.todo p).tail q <:+ prog q
    rw [ht]
    by_cases hq : q = p
    · subst hq
      rw [update_self]
      exact (List.tail_suffix _).trans (hinv.suffix q)
    · rw [update_of_ne hq]
      exact hinv.suffix q
  · intro q hq
    change update t.inside p false q = true at hq
    change update t.todo p (t.todo p).tail q ≠ []
    by_cases hqp : q = p
    · subst hqp
      rw [update_self] at hq
      exact nomatch hq
    · rw [update_of_ne hqp, hi] at hq
      rw [update_of_ne hqp, ht]
      exact hinv.inside q hq
  · intro q hq
    change t.buffer q = data
    rcases hbuf q with hsame | ⟨-, hdata⟩
    · by_cases hself : q = p ∧ a.Receives p
      · obtain ⟨rfl, hr⟩ := hself
        exact hrecv hr
      · rw [hsame]
        refine hinv.holds q (hq.imp_right ?_)
        rintro ⟨b, hb, hr, hnot⟩
        refine ⟨b, hb, hr, fun hleft => hnot ((hmem q b).mpr ⟨hleft, ?_⟩)⟩
        rintro ⟨rfl, rfl⟩
        exact hself ⟨rfl, hr⟩
    · exact hdata
  · intro k q dst
    exact finish_chan h hinv htodo hin hcollect k q dst
  · intro k q dst hprog hnot
    rw [hahead]
    by_cases hthis : dst = p ∧ Act.recv k q = a
    · obtain ⟨rfl, rfl⟩ := hthis
      exact (collect_recv hinv hcollect).1.2.1
    · exact hinv.received k q dst hprog fun hleft => hnot ((hmem dst _).mpr ⟨hleft, hthis⟩)
  · intro k v hv
    change t.posted k = some v at hv
    rw [hp] at hv
    obtain ⟨hdata, root, hroot, hcalled⟩ := hinv.postedBy k v hv
    refine ⟨hdata, root, hroot, ?_⟩
    rw [hahead]
    exact hcalled
  · intro k root hprog hnot
    change t.posted k = some data
    rw [hahead] at hnot
    rw [hp]
    exact hinv.posted k root hprog hnot

end

variable {e : Event P}

theorem step_call (hstep : step s e = .ok t) :
    (∃ p a rest, e = .call p ∧ s.todo p = a :: rest ∧ s.inside p = false ∧
      t = enter (contribute s p a) p) ∨
    (∃ p a rest u, e = .finish p ∧ s.todo p = a :: rest ∧ s.inside p = true ∧
      collect s p a = some u ∧ t = exit u p) := by
  cases e with
  | call p =>
    rw [step] at hstep
    split at hstep
    · rename_i a rest htodo hout
      exact .inl ⟨p, a, rest, rfl, htodo, hout, (Except.ok.inj hstep).symm⟩
    · exact nomatch hstep
  | finish p =>
    rw [step] at hstep
    split at hstep
    · rename_i a rest htodo hin
      split at hstep
      · rename_i u hcollect
        exact .inr ⟨p, a, rest, u, rfl, htodo, hin, hcollect, (Except.ok.inj hstep).symm⟩
      · exact nomatch hstep
    · exact nomatch hstep

section
variable (h : Agreed members prog origin level)
include h

theorem step_inv (hinv : Inv prog origin data s) (hstep : step s e = .ok t) : Inv prog origin data t := by
  obtain ⟨p, a, rest, -, htodo, hout, rfl⟩ | ⟨p, a, rest, u, -, htodo, hin, hcollect, rfl⟩ :=
    step_call hstep
  · exact call_inv h hinv htodo hout
  · exact finish_inv h hinv htodo hin hcollect

theorem run_inv (buffer : P → α) {es : List (Event P)}
    (hrun : Runs.run step (init prog buffer) es = .ok s) : Inv prog origin (buffer origin) s :=
  Runs.run_invariant (P := fun _ _ => True) (fun _ _ _ hinv _ hstep => step_inv h hinv hstep)
    (init_inv buffer h) (.of_forall (fun _ _ => trivial) _ _) hrun

theorem delivered (hinv : Inv prog origin data s)
    (htodo : s.todo p = a :: rest) (hreceives : a.Receives p) (hstep : step s (.finish p) = .ok t) :
    s.buffer (a.source p) = data ∧ t.buffer p = data := by
  have hmem : a ∈ s.todo p := by
    rw [htodo]
    exact List.mem_cons_self
  have hprog := mem_prog (hinv.suffix p) hmem
  obtain ⟨_, _, _, hev, -⟩ | ⟨q, b, rest', u, hev, htodo', hin, hcollect, rfl⟩ := step_call hstep
  · exact nomatch hev
  · obtain rfl := Event.finish.inj hev
    obtain ⟨rfl, -⟩ := List.cons.inj (htodo.symm.trans htodo')
    refine ⟨?_, (collect_spec hinv hcollect).2.2 hreceives⟩
    cases a with
    | send k dst => exact nomatch hreceives
    | recv k src =>
      obtain ⟨⟨hsent, hcalled, -⟩, -⟩ := collect_recv hinv hcollect
      exact sender_holds h hinv hsent trivial hcalled
    | bcast k root =>
      rw [collect, if_neg hreceives] at hcollect
      obtain ⟨v, hposted, -⟩ := Option.map_eq_some_iff.mp hcollect
      obtain ⟨-, root', hroot', hcalled⟩ := hinv.postedBy k v hposted
      have hmine := (h.member hroot').2 p (h.joined hprog)
      obtain rfl := h.once hprog hmine
      exact sender_holds h hinv hroot' rfl hcalled

end

def Due (members : κ → List P) (s : State κ P α) : Event P → Prop
  | .call _ => True
  | .finish p => ∀ a ∈ (s.todo p).head?, Together members s p a

theorem progress (h : Agreed members prog origin level) (hinv : Inv prog origin data s)
    (hnot : ¬ Finished s) : ∃ e t, Due members s e ∧ step s e = .ok t := by
  have hleft : ∃ p, s.todo p ≠ [] := not_forall.mp hnot
  obtain ⟨p, a, rest, htodo, hlow⟩ := Runs.exists_lowest level hleft
  by_cases hcall : ∃ q b rest', s.todo q = b :: rest' ∧ level b = level a ∧ s.inside q = false
  · obtain ⟨q, b, rest', hq, -, hout⟩ := hcall
    refine ⟨.call q, enter (contribute s q b) q, trivial, ?_⟩
    rw [step, hq, hout]
  · have hin : ∀ q b rest', s.todo q = b :: rest' → level b = level a → s.inside q = true := by
      intro q b rest' hq hlevel
      by_contra hout
      exact hcall ⟨q, b, rest', hq, hlevel, Bool.eq_false_iff.mpr hout⟩
    have hcalled : ∀ {q b}, level b = level a → b ∉ ahead s q := lowest_called h hinv hlow hin
    have hmem : a ∈ s.todo p := by
      rw [htodo]
      exact List.mem_cons_self
    have hprog := mem_prog (hinv.suffix p) hmem
    have htogether : Together members s p a := by
      cases a with
      | send k dst => exact hcalled (h.balanced hprog)
      | recv k src => exact hcalled (h.balanced (h.received hprog)).symm
      | bcast k root => exact fun q _ => hcalled rfl
    have hcollect : ∃ t, collect s p a = some t := by
      cases a with
      | send k dst => exact ⟨s, rfl⟩
      | recv k src =>
        obtain ⟨-, hchan⟩ | ⟨hno, -⟩ := hinv.chan k src p
        · rw [collect, hchan]
          exact ⟨_, rfl⟩
        · exact absurd ⟨h.received hprog, htogether, hmem⟩ hno
      | bcast k root =>
        rw [collect]
        split
        · exact ⟨s, rfl⟩
        · obtain ⟨hroot, hall⟩ := h.member hprog
          rw [hinv.posted k root (hall root hroot) (htogether root hroot)]
          exact ⟨_, rfl⟩
    obtain ⟨t, ht⟩ := hcollect
    refine ⟨.finish p, exit t p, ?_, ?_⟩
    · intro b hb
      rw [htodo] at hb
      obtain rfl := Option.some.inj hb
      exact htogether
    · rw [step, htodo, hin p a rest htodo rfl]
      dsimp only
      rw [ht]

def remaining (procs : Finset P) (s : State κ P α) : Nat :=
  ∑ p ∈ procs, (2 * (s.todo p).length - (s.inside p).toNat)

theorem step_remaining {procs : Finset P} (hprocs : ∀ q ∉ procs, s.todo q = [])
    (hstep : step s e = .ok t) :
    remaining procs s = remaining procs t + 1 ∧ ∀ q ∉ procs, t.todo q = [] := by
  obtain ⟨p, a, rest, -, htodo, hout, rfl⟩ | ⟨p, a, rest, u, -, htodo, hin, hcollect, rfl⟩ :=
    step_call hstep
  · have hp : p ∈ procs := by
      by_contra hnot
      rw [hprocs p hnot] at htodo
      exact nomatch htodo
    obtain ⟨ht, hi, -⟩ := contribute_todo s p a
    refine ⟨Runs.sum_step hp ?_ ?_, ?_⟩
    · unfold enter
      dsimp only
      rw [update_self, ht, htodo, hout, List.length_cons]
      change 2 * (rest.length + 1) - 0 = 2 * (rest.length + 1) - 1 + 1
      omega
    · intro q hq
      unfold enter
      dsimp only
      rw [update_of_ne hq, ht, hi]
    · intro q hq
      change (contribute s p a).todo q = []
      rw [ht]
      exact hprocs q hq
  · have hp : p ∈ procs := by
      by_contra hnot
      rw [hprocs p hnot] at htodo
      exact nomatch htodo
    obtain ⟨ht, hi⟩ := collect_todo hcollect
    refine ⟨Runs.sum_step hp ?_ ?_, ?_⟩
    · unfold exit
      dsimp only
      rw [update_self, update_self, ht, htodo, hin, List.tail_cons, List.length_cons]
      change 2 * (rest.length + 1) - 1 = 2 * rest.length - 0 + 1
      omega
    · intro q hq
      unfold exit
      dsimp only
      rw [update_of_ne hq, update_of_ne hq, ht, hi]
    · intro q hq
      change update u.todo p (u.todo p).tail q = []
      have hne : q ≠ p := by
        rintro rfl
        exact hq hp
      rw [update_of_ne hne, ht]
      exact hprocs q hq

theorem run_remaining {procs : Finset P} (hprocs : ∀ q ∉ procs, s.todo q = [])
    {es : List (Event P)} (hrun : Runs.run step s es = .ok t) :
    remaining procs s = remaining procs t + es.length := by
  induction es generalizing s with
  | nil =>
    obtain rfl := Except.ok.inj hrun
    rfl
  | cons e es ih =>
    obtain ⟨u, hstep, hrest⟩ := Runs.run_cons_eq_ok hrun
    obtain ⟨hless, hprocs'⟩ := step_remaining hprocs hstep
    have htail := ih hprocs' hrest
    rw [List.length_cons]
    omega

end Steps

theorem finished_spec (hinv : Inv prog origin data s) (hfin : Finished s) :
    (∀ p, (p = origin ∨ ∃ b ∈ prog p, b.Receives p) → s.buffer p = data) ∧
      ∀ k p dst, s.chan k p dst = [] := by
  constructor
  · intro p hp
    refine hinv.holds p (hp.imp_right ?_)
    rintro ⟨b, hb, hr⟩
    refine ⟨b, hb, hr, ?_⟩
    rw [hfin p]
    exact List.not_mem_nil
  · intro k p dst
    obtain ⟨⟨-, -, hleft⟩, -⟩ | ⟨-, hempty⟩ := hinv.chan k p dst
    · rw [hfin dst] at hleft
      exact nomatch hleft
    · exact hempty

end Invariant

end FgMpi.Machine.Collectives
