import FgMpi.Machine.Runs

/-! Programs that send values to each other. -/

namespace FgMpi.Machine.Dialogues
open Function (update update_of_ne update_self)

structure Out (C P α : Type) where
  comm : C
  dst : P
  msg : List α

/-- `off` is the place in the buffer, and `cap` the number of elements that is posted. -/
structure Inp (C P : Type) where
  comm : C
  src : P
  off : Nat
  cap : Nat

/-- `comm` posts all its sends and receives at once.  A collective call gives `mine` to the others and
needs what the processes in `needs` give. -/
inductive Prog (C P α R : Type)
  | done (result : R)
  | comm (out : List (Out C P α)) (inp : List (Inp C P)) (next : List (List α) → Prog C P α R)
  | coll (comm : C) (mine : List α) (needs : List P) (next : List (List α) → Prog C P α R)

/-- `board` is what a process has given to the collective calls on a communicator so far. -/
structure State (C P α R : Type) where
  prog : P → Prog C P α R
  inside : P → Bool
  chan : C → P → P → List (List α)
  board : C → P → List (List α)

inductive Event (P : Type)
  | call (p : P)
  | finish (p : P)
deriving DecidableEq

section Semantics
variable {C P α R : Type} [DecidableEq C] [DecidableEq P]

def init (prog : P → Prog C P α R) : State C P α R where
  prog := prog
  inside := fun _ => false
  chan := fun _ _ _ => []
  board := fun _ _ => []

def put (chan : C → P → P → List (List α)) (comm : C) (src dst : P) (msgs : List (List α)) :
    C → P → P → List (List α) :=
  fun comm' src' dst' =>
    if comm' = comm ∧ src' = src ∧ dst' = dst then msgs else chan comm' src' dst'

def post (chan : C → P → P → List (List α)) (p : P) : List (Out C P α) → C → P → P → List (List α)
  | [] => chan
  | o :: out => post (put chan o.comm p o.dst (chan o.comm p o.dst ++ [o.msg])) p out

def takeAll (chan : C → P → P → List (List α)) (p : P) :
    List (Inp C P) → Option (List (List α) × (C → P → P → List (List α)))
  | [] => some ([], chan)
  | i :: inp =>
    match chan i.comm i.src p with
    | [] => none
    | msg :: msgs => (takeAll (put chan i.comm i.src p msgs) p inp).map fun r => (msg :: r.1, r.2)

def fit (inp : List (Inp C P)) (msgs : List (List α)) : List (List α) :=
  inp.zipWith (fun i msg => msg.take i.cap) msgs

def lookAll (board : C → P → List (List α)) (comm : C) (k : Nat) : List P → Option (List (List α))
  | [] => some []
  | q :: needs =>
    match (board comm q)[k]? with
    | none => none
    | some msg => (lookAll board comm k needs).map fun msgs => msg :: msgs

def give (board : C → P → List (List α)) (comm : C) (p : P) (msg : List α) : C → P → List (List α) :=
  fun comm' q => if comm' = comm ∧ q = p then board comm' q ++ [msg] else board comm' q

def goOn (s : State C P α R) (p : P) (next : Prog C P α R) : State C P α R :=
  { s with prog := update s.prog p next, inside := update s.inside p false }

def step (s : State C P α R) : Event P → Except Unit (State C P α R)
  | .call p =>
    match s.prog p, s.inside p with
    | .comm out _ _, false =>
      .ok { s with chan := post s.chan p out, inside := update s.inside p true }
    | .coll comm mine _ _, false =>
      .ok { s with board := give s.board comm p mine, inside := update s.inside p true }
    | _, _ => .error ()
  | .finish p =>
    match s.prog p, s.inside p with
    | .comm _ inp next, true =>
      match takeAll s.chan p inp with
      | none => .error ()
      | some (msgs, chan) => .ok (goOn { s with chan := chan } p (next (fit inp msgs)))
    | .coll comm _ needs next, true =>
      match lookAll s.board comm ((s.board comm p).length - 1) needs with
      | none => .error ()
      | some msgs => .ok (goOn s p (next msgs))
    | _, _ => .error ()

end Semantics

section Properties
variable {C P α R : Type} [DecidableEq C] [DecidableEq P]

def Finished (s : State C P α R) : Prop := ∀ p, ∃ r, s.prog p = .done r

def posted (s : State C P α R) (comm : C) (src dst : P) : Nat :=
  if s.inside dst = true then
    match s.prog dst with
    | .comm _ inp _ => inp.countP fun i => i.comm = comm ∧ i.src = src
    | _ => 0
  else 0

def Due (members : C → Finset P) (s : State C P α R) : Event P → Prop
  | .call _ => True
  | .finish p =>
    match s.prog p with
    | .comm out _ _ => ∀ o ∈ out, (s.chan o.comm p o.dst).length ≤ posted s o.comm p o.dst
    | .coll comm _ _ _ => ∀ q ∈ members comm, (s.board comm p).length ≤ (s.board comm q).length
    | .done _ => True

end Properties

/-- Every run ends, with these results; no process waits for ever, whatever it comes to receive `fits`,
and nothing is left over. -/
structure Computes {C P α R : Type} [DecidableEq C] [DecidableEq P] (members : C → Finset P)
    (fits : List α → Inp C P → Prop) (prog : P → Prog C P α R) (result : P → R) : Prop where
  bounded : ∃ n, ∀ es s, Runs.run step (init prog) es = .ok s → es.length ≤ n
  progress : ∀ es s, Runs.run step (init prog) es = .ok s → ¬ Finished s →
    ∃ e t, Due members s e ∧ step s e = .ok t
  fitting : ∀ es s, Runs.run step (init prog) es = .ok s →
    ∀ p out inp next msgs chan, s.prog p = .comm out inp next → s.inside p = true →
      takeAll s.chan p inp = some (msgs, chan) → List.Forall₂ (fun i msg => fits msg i) inp msgs
  results : ∀ es s, Runs.run step (init prog) es = .ok s → ∀ p r, s.prog p = .done r → r = result p
  matched : ∀ es s, Runs.run step (init prog) es = .ok s → Finished s → ∀ c p q, s.chan c p q = []

structure Got (C P α : Type) where
  comm : C
  src : P
  off : Nat
  cap : Nat
  msg : List α

def Got.inp {C P α : Type} (g : Got C P α) : Inp C P := ⟨g.comm, g.src, g.off, g.cap⟩

inductive Act (C P α : Type)
  | comm (out : List (Out C P α)) (got : List (Got C P α))
  | coll (comm : C) (mine : List α) (needs : List (P × List α))

structure Op (C P α : Type) where
  level : Nat
  act : Act C P α

section Plans
variable {C P α R : Type}

def Follows (fits : List α → Inp C P → Prop) (r : R) : List (Op C P α) → Prog C P α R → Prop
  | [], .done r' => r' = r
  | ⟨_, .comm out got⟩ :: rest, .comm out' inp next =>
    out' = out ∧ inp = got.map Got.inp ∧ (∀ g ∈ got, fits g.msg g.inp) ∧
      Follows fits r rest (next (got.map Got.msg))
  | ⟨_, .coll comm mine needs⟩ :: rest, .coll comm' mine' needs' next =>
    comm' = comm ∧ mine' = mine ∧ needs' = needs.map Prod.fst ∧
      Follows fits r rest (next (needs.map Prod.snd))
  | _, _ => False

variable [DecidableEq C] [DecidableEq P]

def Op.outs (c : C) (q : P) (op : Op C P α) : List (Nat × List α) :=
  match op.act with
  | .comm out _ => (out.filter fun o => o.comm = c ∧ o.dst = q).map fun o => (op.level, o.msg)
  | .coll .. => []

def Op.inps (c : C) (p : P) (op : Op C P α) : List (Nat × List α) :=
  match op.act with
  | .comm _ got => (got.filter fun g => g.comm = c ∧ g.src = p).map fun g => (op.level, g.msg)
  | .coll .. => []

def Op.colls (c : C) (op : Op C P α) : List (Nat × List α) :=
  match op.act with
  | .comm .. => []
  | .coll comm mine _ => if comm = c then [(op.level, mine)] else []

def outs (c : C) (q : P) (ops : List (Op C P α)) : List (Nat × List α) := ops.flatMap (Op.outs c q)
def inps (c : C) (p : P) (ops : List (Op C P α)) : List (Nat × List α) := ops.flatMap (Op.inps c p)
def colls (c : C) (ops : List (Op C P α)) : List (Nat × List α) := ops.flatMap (Op.colls c)

/-- The sides of every message and of every collective call agree. -/
structure Plan (procs : Finset P) (members : C → Finset P) (plan : P → List (Op C P α)) : Prop where
  ordered : ∀ p, (plan p).Pairwise fun a b => a.level < b.level
  agreed : ∀ c p q, outs c q (plan p) = inps c p (plan q)
  called : ∀ c, ∀ p ∈ members c, ∀ q ∈ members c,
    (colls c (plan p)).map Prod.fst = (colls c (plan q)).map Prod.fst
  needed : ∀ p, ∀ op ∈ plan p, ∀ c mine needs, op.act = .coll c mine needs →
    p ∈ members c ∧ ∀ n ∈ needs, n.1 ∈ members c ∧ (op.level, n.2) ∈ colls c (plan n.1)
  outside : ∀ p ∉ procs, plan p = []

end Plans

section Operations
variable {C P α R : Type} {fits : List α → Inp C P → Prop} {r : R} {rest : List (Op C P α)}

variable {prog : Prog C P α R}

theorem follows_nil (h : Follows fits r [] prog) : prog = .done r := by
  cases prog with
  | done r' =>
    obtain rfl : r' = r := h
    rfl
  | comm out inp next => exact nomatch h
  | coll comm mine needs next => exact nomatch h

theorem follows_comm {level : Nat} {out : List (Out C P α)} {got : List (Got C P α)} (h : Follows fits r (⟨level, .comm out got⟩ :: rest) prog) :
    ∃ next, prog = .comm out (got.map Got.inp) next ∧ (∀ g ∈ got, fits g.msg g.inp) ∧
      Follows fits r rest (next (got.map Got.msg)) := by
  cases prog with
  | done r' => exact nomatch h
  | comm out' inp next =>
    obtain ⟨rfl, rfl, hfits, hrest⟩ := h
    exact ⟨next, rfl, hfits, hrest⟩
  | coll comm mine needs next => exact nomatch h

theorem follows_coll {level : Nat} {comm : C} {mine : List α} {needs : List (P × List α)} (h : Follows fits r (⟨level, .coll comm mine needs⟩ :: rest) prog) :
    ∃ next, prog = .coll comm mine (needs.map Prod.fst) next ∧
      Follows fits r rest (next (needs.map Prod.snd)) := by
  cases prog with
  | done r' => exact nomatch h
  | comm out' inp next => exact nomatch h
  | coll comm' mine' needs' next =>
    obtain ⟨rfl, rfl, rfl, hrest⟩ := h
    exact ⟨next, rfl, hrest⟩

variable {ops : List (Op C P α)}

theorem ops_of_comm {out : List (Out C P α)} {inp : List (Inp C P)}
    {next : List (List α) → Prog C P α R} (h : Follows fits r ops (.comm out inp next)) :
    ∃ level got rest, ops = ⟨level, .comm out got⟩ :: rest ∧ inp = got.map Got.inp ∧
      (∀ g ∈ got, fits g.msg g.inp) ∧ Follows fits r rest (next (got.map Got.msg)) := by
  match ops, h with
  | ⟨level, .comm out' got⟩ :: rest, h =>
    obtain ⟨rfl, hinp, hfits, hrest⟩ := h
    exact ⟨level, got, rest, rfl, hinp, hfits, hrest⟩
  | ⟨_, .coll ..⟩ :: _, h => exact nomatch h
  | [], h => exact nomatch h

theorem ops_of_coll {comm : C} {mine : List α} {needs : List P}
    {next : List (List α) → Prog C P α R} (h : Follows fits r ops (.coll comm mine needs next)) :
    ∃ level needs' rest, ops = ⟨level, .coll comm mine needs'⟩ :: rest ∧ needs = needs'.map Prod.fst ∧
      Follows fits r rest (next (needs'.map Prod.snd)) := by
  match ops, h with
  | ⟨level, .coll comm' mine' needs'⟩ :: rest, h =>
    obtain ⟨rfl, rfl, hneeds, hrest⟩ := h
    exact ⟨level, needs', rest, rfl, hneeds, hrest⟩
  | ⟨_, .comm ..⟩ :: _, h => exact nomatch h
  | [], h => exact nomatch h

variable [DecidableEq C]

theorem colls_cons (c : C) (op : Op C P α) (rest : List (Op C P α)) :
    colls c (op :: rest) = op.colls c ++ colls c rest := rfl

theorem colls_append (c : C) (xs ys : List (Op C P α)) :
    colls c (xs ++ ys) = colls c xs ++ colls c ys := List.flatMap_append

variable {op : Op C P α} {k : Nat × List α}

theorem colls_level {c : C} (h : k ∈ op.colls c) : k.1 = op.level := by
  unfold Op.colls at h
  split at h
  · exact nomatch h
  · split at h
    · obtain rfl := List.mem_singleton.mp h
      rfl
    · exact nomatch h

theorem colls_pairwise {c : C} (h : ops.Pairwise fun a b => a.level < b.level) :
    (colls c ops).Pairwise fun a b => a.1 < b.1 := by
  induction ops with
  | nil => exact List.Pairwise.nil
  | cons op ops ih =>
    obtain ⟨hop, hrest⟩ := List.pairwise_cons.mp h
    rw [colls_cons]
    refine List.pairwise_append.mpr ⟨?_, ih hrest, ?_⟩
    · unfold Op.colls
      split
      · exact List.Pairwise.nil
      · split
        · exact List.pairwise_singleton _ _
        · exact List.Pairwise.nil
    · intro a ha b hb
      obtain ⟨op', hop', hb'⟩ := List.mem_flatMap.mp hb
      rw [colls_level ha, colls_level hb']
      exact hop op' hop'

variable [DecidableEq P]

theorem outs_cons (c : C) (q : P) (op : Op C P α) (rest : List (Op C P α)) :
    outs c q (op :: rest) = op.outs c q ++ outs c q rest := rfl

theorem inps_cons (c : C) (p : P) (op : Op C P α) (rest : List (Op C P α)) :
    inps c p (op :: rest) = op.inps c p ++ inps c p rest := rfl

theorem outs_append (c : C) (q : P) (xs ys : List (Op C P α)) :
    outs c q (xs ++ ys) = outs c q xs ++ outs c q ys := List.flatMap_append

theorem outs_level {c : C} {q : P} (h : k ∈ op.outs c q) : k.1 = op.level := by
  unfold Op.outs at h
  split at h
  · obtain ⟨o, -, rfl⟩ := List.mem_map.mp h
    rfl
  · exact nomatch h

theorem inps_level {c : C} {p : P} (h : k ∈ op.inps c p) : k.1 = op.level := by
  unfold Op.inps at h
  split at h
  · obtain ⟨o, -, rfl⟩ := List.mem_map.mp h
    rfl
  · exact nomatch h

end Operations

section Channels
variable {C P α : Type} [DecidableEq C] [DecidableEq P]

section
variable (chan : C → P → P → List (List α))
include chan

theorem put_same (c : C) (src dst : P) (msgs : List (List α)) :
    put chan c src dst msgs c src dst = msgs := if_pos ⟨rfl, rfl, rfl⟩

theorem put_other {c c' : C} {src src' dst dst' : P}
    (msgs : List (List α)) (h : ¬ (c' = c ∧ src' = src ∧ dst' = dst)) :
    put chan c src dst msgs c' src' dst' = chan c' src' dst' := if_neg h

theorem post_eq (p : P) (out : List (Out C P α)) (c : C) (src dst : P) :
    post chan p out c src dst = chan c src dst ++
      if src = p then (out.filter fun o => o.comm = c ∧ o.dst = dst).map Out.msg else [] := by
  induction out generalizing chan with
  | nil => simp [post]
  | cons o out ih =>
    rw [post, ih]
    by_cases hsrc : src = p
    · subst hsrc
      rw [if_pos rfl]
      by_cases hthis : c = o.comm ∧ dst = o.dst
      · obtain ⟨rfl, rfl⟩ := hthis
        simp [put_same]
      · rw [put_other _ _ fun hand => hthis ⟨hand.1, hand.2.2⟩, List.filter_cons_of_neg]
        · simp
        · simp only [decide_eq_true_eq]
          exact fun hand => hthis ⟨hand.1.symm, hand.2.symm⟩
    · rw [if_neg hsrc, if_neg hsrc, put_other _ _ fun hand => hsrc hand.2.1]

end

variable {chan : C → P → P → List (List α)}

theorem takeAll_none {p : P} {i : Inp C P} {inp : List (Inp C P)}
    (h : chan i.comm i.src p = []) : takeAll chan p (i :: inp) = none := by
  rw [takeAll, h]

theorem takeAll_cons {p : P} {i : Inp C P} {inp : List (Inp C P)}
    {msg : List α} {msgs : List (List α)} (h : chan i.comm i.src p = msg :: msgs) :
    takeAll chan p (i :: inp) =
      (takeAll (put chan i.comm i.src p msgs) p inp).map fun r => (msg :: r.1, r.2) := by
  rw [takeAll, h]

/-- What an operation at a level receives over a channel. -/
def part (level : Nat) (got : List (Got C P α)) (c : C) (src : P) : List (Nat × List α) :=
  (got.filter fun g => g.comm = c ∧ g.src = src).map fun g => (level, g.msg)

theorem part_cons_self (level : Nat) (g : Got C P α) (got : List (Got C P α)) :
    part level (g :: got) g.comm g.src = (level, g.msg) :: part level got g.comm g.src := by
  simp [part]

theorem part_cons_other (level : Nat) {g : Got C P α} (got : List (Got C P α)) {c : C} {src : P}
    (h : ¬ (c = g.comm ∧ src = g.src)) : part level (g :: got) c src = part level got c src := by
  rw [part, List.filter_cons_of_neg]
  · rfl
  · simp only [decide_eq_true_eq]
    exact fun hand => h ⟨hand.1.symm, hand.2.symm⟩

theorem takeAll_eq {p : P} {level : Nat} {got : List (Got C P α)} {chan' : C → P → P → List (List α)}
    {kept ahead later : C → P → List (Nat × List α)} {msgs : List (List α)}
    (hchan : ∀ c src, chan c src p = (kept c src).map Prod.snd)
    (hagreed : ∀ c src, kept c src ++ ahead c src = part level got c src ++ later c src)
    (h : takeAll chan p (got.map Got.inp) = some (msgs, chan')) :
    msgs = got.map Got.msg ∧ ∃ kept' : C → P → List (Nat × List α),
      (∀ c src, kept c src = part level got c src ++ kept' c src) ∧
      (∀ c src, chan' c src p = (kept' c src).map Prod.snd) ∧
      ∀ c src dst, dst ≠ p → chan' c src dst = chan c src dst := by
  induction got generalizing chan kept msgs with
  | nil =>
    obtain ⟨rfl, rfl⟩ := Prod.mk.inj (Option.some.inj h)
    exact ⟨rfl, kept, fun c src => rfl, hchan, fun _ _ _ _ => rfl⟩
  | cons g got ih =>
    rw [List.map_cons] at h
    have hhead := hagreed g.comm g.src
    rw [part_cons_self] at hhead
    have hcontent := hchan g.comm g.src
    cases hkept : kept g.comm g.src with
    | nil =>
      rw [hkept] at hcontent
      rw [takeAll_none hcontent] at h
      exact nomatch h
    | cons k ks =>
      rw [hkept] at hcontent hhead
      rw [takeAll_cons hcontent] at h
      obtain ⟨rfl, htail⟩ := List.cons.inj hhead
      obtain ⟨⟨msgs', chan''⟩, htake, hres⟩ := Option.map_eq_some_iff.mp h
      obtain ⟨rfl, rfl⟩ := Prod.mk.inj hres
      have hchan' : ∀ c src, put chan g.comm g.src p (ks.map Prod.snd) c src p =
          (if c = g.comm ∧ src = g.src then ks else kept c src).map Prod.snd := by
        intro c src
        by_cases hthis : c = g.comm ∧ src = g.src
        · obtain ⟨rfl, rfl⟩ := hthis
          rw [put_same, if_pos ⟨rfl, rfl⟩]
        · rw [put_other _ _ fun hand => hthis ⟨hand.1, hand.2.1⟩, if_neg hthis, hchan]
      have hagreed' : ∀ c src, (if c = g.comm ∧ src = g.src then ks else kept c src) ++ ahead c src =
          part level got c src ++ later c src := by
        intro c src
        by_cases hthis : c = g.comm ∧ src = g.src
        · obtain ⟨rfl, rfl⟩ := hthis
          rw [if_pos ⟨rfl, rfl⟩]
          exact htail
        · rw [if_neg hthis, hagreed, part_cons_other level got hthis]
      obtain ⟨hmsgs, kept', hsplit, hleft, hother⟩ := ih hchan' hagreed' htake
      refine ⟨by rw [hmsgs]; rfl, kept', fun c src => ?_, hleft, fun c src dst hdst => ?_⟩
      · have hs := hsplit c src
        by_cases hthis : c = g.comm ∧ src = g.src
        · obtain ⟨rfl, rfl⟩ := hthis
          rw [if_pos ⟨rfl, rfl⟩] at hs
          rw [part_cons_self, hkept, hs]
          rfl
        · rw [if_neg hthis] at hs
          rw [part_cons_other level got hthis]
          exact hs
      · rw [hother c src dst hdst, put_other _ _ fun hand => hdst hand.2.2]

theorem takeAll_some {p : P} {level : Nat} {got : List (Got C P α)}
    (h : ∀ c src, ∃ rest, chan c src p = (part level got c src).map Prod.snd ++ rest) :
    ∃ r, takeAll chan p (got.map Got.inp) = some r := by
  induction got generalizing chan with
  | nil => exact ⟨_, rfl⟩
  | cons g got ih =>
    obtain ⟨rest, hthis⟩ := h g.comm g.src
    rw [part_cons_self, List.map_cons, List.cons_append] at hthis
    have hrest : ∀ c src, ∃ rest', put chan g.comm g.src p
        ((part level got g.comm g.src).map Prod.snd ++ rest) c src p =
          (part level got c src).map Prod.snd ++ rest' := by
      intro c src
      by_cases hsame : c = g.comm ∧ src = g.src
      · obtain ⟨rfl, rfl⟩ := hsame
        exact ⟨rest, put_same ..⟩
      · obtain ⟨rest', hc⟩ := h c src
        rw [part_cons_other level got hsame] at hc
        exact ⟨rest', by rw [put_other _ _ fun hand => hsame ⟨hand.1, hand.2.1⟩, hc]⟩
    obtain ⟨r, hr⟩ := ih hrest
    refine ⟨(g.msg :: r.1, r.2), ?_⟩
    rw [List.map_cons, takeAll_cons (i := g.inp) hthis]
    change (takeAll (put chan g.comm g.src p _) p _).map _ = _
    rw [hr]
    rfl

end Channels

section Values
variable {C P α : Type}

theorem fit_eq {got : List (Got C P α)} (h : ∀ g ∈ got, g.msg.length ≤ g.cap) :
    fit (got.map Got.inp) (got.map Got.msg) = got.map Got.msg := by
  induction got with
  | nil => rfl
  | cons g got ih =>
    have hrest := ih fun g' hg' => h g' (List.mem_cons_of_mem _ hg')
    have hlen := List.take_of_length_le (h g List.mem_cons_self)
    unfold fit at hrest ⊢
    rw [List.map_cons, List.map_cons, List.zipWith_cons_cons, hrest]
    change g.msg.take g.cap :: _ = _
    rw [hlen]

theorem forall₂_got {fits : List α → Inp C P → Prop} {got : List (Got C P α)}
    (h : ∀ g ∈ got, fits g.msg g.inp) :
    List.Forall₂ (fun i msg => fits msg i) (got.map Got.inp) (got.map Got.msg) := by
  induction got with
  | nil => exact List.Forall₂.nil
  | cons g got ih =>
    exact .cons (h g List.mem_cons_self) (ih fun g' hg' => h g' (List.mem_cons_of_mem _ hg'))

theorem lookAll_eq {board : C → P → List (List α)} {c : C} {k : Nat} {needs : List (P × List α)}
    {msgs : List (List α)} (hneeds : ∀ n ∈ needs, ∀ msg, (board c n.1)[k]? = some msg → msg = n.2)
    (h : lookAll board c k (needs.map Prod.fst) = some msgs) : msgs = needs.map Prod.snd := by
  induction needs generalizing msgs with
  | nil => exact (Option.some.inj h).symm
  | cons n needs ih =>
    rw [List.map_cons, lookAll] at h
    cases hmsg : (board c n.1)[k]? with
    | none =>
      rw [hmsg] at h
      exact nomatch h
    | some msg =>
      rw [hmsg] at h
      obtain ⟨msgs', hlook, rfl⟩ := Option.map_eq_some_iff.mp h
      rw [ih (fun n' hn' => hneeds n' (List.mem_cons_of_mem _ hn')) hlook,
        hneeds n List.mem_cons_self msg hmsg]
      rfl

theorem lookAll_some {board : C → P → List (List α)} {c : C} {k : Nat} {needs : List P}
    (h : ∀ q ∈ needs, k < (board c q).length) : ∃ msgs, lookAll board c k needs = some msgs := by
  induction needs with
  | nil => exact ⟨[], rfl⟩
  | cons q needs ih =>
    obtain ⟨msgs, hlook⟩ := ih fun q' hq' => h q' (List.mem_cons_of_mem _ hq')
    refine ⟨(board c q).get ⟨k, h q List.mem_cons_self⟩ :: msgs, ?_⟩
    rw [lookAll, List.getElem?_eq_getElem (h q List.mem_cons_self)]
    dsimp only
    rw [hlook]
    rfl

end Values

section Invariant
variable {C P α R : Type} [DecidableEq C] [DecidableEq P]

def aheadOf (todo : P → List (Op C P α)) (s : State C P α R) (p : P) : List (Op C P α) :=
  bif s.inside p then (todo p).tail else todo p

/-- `todo` is what is left of the plan, and `pending` what is in the channels. -/
structure Inv (fits : List α → Inp C P → Prop) (result : P → R) (plan todo : P → List (Op C P α))
    (pending : C → P → P → List (Nat × List α)) (s : State C P α R) : Prop where
  follows : ∀ p, Follows fits (result p) (todo p) (s.prog p)
  inside : ∀ p, s.inside p = true → todo p ≠ []
  ordered : ∀ p, (todo p).Pairwise fun a b => a.level < b.level
  suffix : ∀ p, todo p <:+ plan p
  chan : ∀ c p q, s.chan c p q = (pending c p q).map Prod.snd
  agreed : ∀ c p q, pending c p q ++ outs c q (aheadOf todo s p) = inps c p (todo q)
  sent : ∀ c p q, ∀ k ∈ pending c p q, ∀ op ∈ todo p, k.1 ≤ op.level
  board : ∀ c p, ∃ given : List (Nat × List α), s.board c p = given.map Prod.snd ∧
    given ++ colls c (aheadOf todo s p) = colls c (plan p)

def remaining (procs : Finset P) (todo : P → List (Op C P α)) (s : State C P α R) : Nat :=
  ∑ p ∈ procs, (2 * (todo p).length - (s.inside p).toNat)

variable {procs : Finset P} {members : C → Finset P} {fits : List α → Inp C P → Prop} {result : P → R}
variable {plan todo : P → List (Op C P α)} {pending : C → P → P → List (Nat × List α)}
variable {s t : State C P α R} {prog : P → Prog C P α R} {p : P}

theorem init_inv (h : Plan procs members plan) (hfollows : ∀ p, Follows fits (result p) (plan p) (prog p)) :
    Inv fits result plan plan (fun _ _ _ => []) (init prog) where
  follows := hfollows
  inside _ h := (nomatch h)
  ordered := h.ordered
  suffix _ := List.suffix_refl _
  chan _ _ _ := rfl
  agreed := h.agreed
  sent _ _ _ _ h := (nomatch h)
  board _ _ := ⟨[], rfl, rfl⟩

variable {op : Op C P α} {rest ops : List (Op C P α)}

omit [DecidableEq C] in
theorem ahead_call (htodo : todo p = op :: rest)
    (hout : s.inside p = false) (hinside : t.inside = update s.inside p true) (q : P) :
    aheadOf todo s q = (if q = p then [op] else []) ++ aheadOf todo t q := by
  unfold aheadOf
  rw [hinside]
  by_cases hq : q = p
  · subst hq
    rw [update_self, hout, htodo, if_pos rfl]
    rfl
  · rw [update_of_ne hq, if_neg hq, List.nil_append]

theorem call_inv (hinv : Inv fits result plan todo pending s)
    (htodo : todo p = op :: rest) (hout : s.inside p = false)
    (hinside : t.inside = update s.inside p true) (hprog : t.prog = s.prog)
    (hchan : ∀ c src dst, t.chan c src dst =
      s.chan c src dst ++ if src = p then (op.outs c dst).map Prod.snd else [])
    (hboard : ∀ c q, t.board c q = s.board c q ++ if q = p then (op.colls c).map Prod.snd else []) :
    Inv fits result plan todo
      (fun c src dst => pending c src dst ++ if src = p then op.outs c dst else []) t := by
  have hahead := ahead_call htodo hout hinside
  refine ⟨?_, ?_, hinv.ordered, hinv.suffix, ?_, ?_, ?_, ?_⟩
  · intro q
    rw [hprog]
    exact hinv.follows q
  · intro q hq
    by_cases hqp : q = p
    · rw [hqp, htodo]
      exact List.cons_ne_nil _ _
    · rw [hinside, update_of_ne hqp] at hq
      exact hinv.inside q hq
  · intro c src dst
    rw [hchan, hinv.chan, List.map_append]
    split <;> rfl
  · intro c src dst
    have hold := hinv.agreed c src dst
    rw [hahead, outs_append] at hold
    rw [← hold, List.append_assoc]
    by_cases hsrc : src = p
    · rw [if_pos hsrc, if_pos hsrc, outs_cons]
      simp [outs]
    · rw [if_neg hsrc, if_neg hsrc]
      rfl
  · intro c src dst k hk op' hop'
    rcases List.mem_append.mp hk with hold | hnew
    · exact hinv.sent c src dst k hold op' hop'
    · by_cases hsrc : src = p
      · rw [if_pos hsrc] at hnew
        subst hsrc
        have hpair := hinv.ordered src
        rw [htodo] at hop' hpair
        rw [outs_level hnew]
        rcases List.mem_cons.mp hop' with rfl | hrest
        · exact Nat.le_refl _
        · exact Nat.le_of_lt ((List.pairwise_cons.mp hpair).1 op' hrest)
      · rw [if_neg hsrc] at hnew
        exact nomatch hnew
  · intro c q
    obtain ⟨given, hgiven, hplan⟩ := hinv.board c q
    rw [hahead, colls_append] at hplan
    refine ⟨given ++ if q = p then op.colls c else [], ?_, ?_⟩
    · rw [hboard, hgiven, List.map_append]
      split <;> rfl
    · rw [← hplan, List.append_assoc]
      by_cases hq : q = p
      · rw [if_pos hq, if_pos hq, colls_cons]
        simp [colls]
      · rw [if_neg hq, if_neg hq]
        rfl

theorem finish_inv (hinv : Inv fits result plan todo pending s)
    (htodo : todo p = op :: rest) (hin : s.inside p = true)
    {pending' : C → P → P → List (Nat × List α)} {next : Prog C P α R}
    (hprog : t.prog = update s.prog p next) (hfollows : Follows fits (result p) rest next)
    (hinside : t.inside = update s.inside p false) (hboard : t.board = s.board)
    (hchan : ∀ c src dst, t.chan c src dst = (pending' c src dst).map Prod.snd)
    (hpending : ∀ c src dst, pending c src dst =
      (if dst = p then op.inps c src else []) ++ pending' c src dst) :
    Inv fits result plan (update todo p rest) pending' t := by
  have hahead : ∀ q, aheadOf (update todo p rest) t q = aheadOf todo s q := by
    intro q
    unfold aheadOf
    rw [hinside]
    by_cases hq : q = p
    · subst hq
      rw [update_self, update_self, hin, htodo]
      rfl
    · rw [update_of_ne hq, update_of_ne hq]
  refine ⟨?_, ?_, ?_, ?_, hchan, ?_, ?_, ?_⟩
  · intro q
    rw [hprog]
    by_cases hq : q = p
    · subst hq
      rw [update_self, update_self]
      exact hfollows
    · rw [update_of_ne hq, update_of_ne hq]
      exact hinv.follows q
  · intro q hq
    rw [hinside] at hq
    by_cases hqp : q = p
    · rw [hqp, update_self] at hq
      exact nomatch hq
    · rw [update_of_ne hqp] at hq ⊢
      exact hinv.inside q hq
  · intro q
    by_cases hq : q = p
    · subst hq
      have hpair := hinv.ordered q
      rw [htodo] at hpair
      rw [update_self]
      exact (List.pairwise_cons.mp hpair).2
    · rw [update_of_ne hq]
      exact hinv.ordered q
  · intro q
    by_cases hq : q = p
    · subst hq
      have hsuffix := hinv.suffix q
      rw [htodo] at hsuffix
      rw [update_self]
      exact (List.suffix_cons op rest).trans hsuffix
    · rw [update_of_ne hq]
      exact hinv.suffix q
  · intro c src dst
    have hold := hinv.agreed c src dst
    rw [hpending, List.append_assoc] at hold
    rw [hahead]
    by_cases hdst : dst = p
    · subst hdst
      rw [if_pos rfl, htodo, inps_cons] at hold
      rw [update_self]
      exact List.append_cancel_left hold
    · rw [if_neg hdst] at hold
      rw [update_of_ne hdst]
      exact hold
  · intro c src dst k hk op' hop'
    refine hinv.sent c src dst k ?_ op' ?_
    · rw [hpending]
      exact List.mem_append_right _ hk
    · by_cases hsrc : src = p
      · subst hsrc
        rw [update_self] at hop'
        rw [htodo]
        exact List.mem_cons_of_mem _ hop'
      · rw [update_of_ne hsrc] at hop'
        exact hop'
  · intro c q
    rw [hboard, hahead]
    exact hinv.board c q

variable {level n : Nat} {out : List (Out C P α)}

theorem take_eq (hinv : Inv fits result plan todo pending s)
    {got : List (Got C P α)} (htodo : todo p = ⟨level, .comm out got⟩ :: rest)
    {msgs : List (List α)} {chan' : C → P → P → List (List α)}
    (htake : takeAll s.chan p (got.map Got.inp) = some (msgs, chan')) :
    msgs = got.map Got.msg ∧ ∃ pending' : C → P → P → List (Nat × List α),
      (∀ c src dst, chan' c src dst = (pending' c src dst).map Prod.snd) ∧
      ∀ c src dst, pending c src dst =
        (if dst = p then (⟨level, .comm out got⟩ : Op C P α).inps c src else []) ++ pending' c src dst := by
  have hagreed : ∀ c src, pending c src p ++ outs c p (aheadOf todo s src) =
      part level got c src ++ inps c src rest := by
    intro c src
    have hold := hinv.agreed c src p
    rw [htodo, inps_cons] at hold
    exact hold
  obtain ⟨hmsgs, kept', hsplit, hleft, hother⟩ :=
    takeAll_eq (fun c src => hinv.chan c src p) hagreed htake
  refine ⟨hmsgs, fun c src dst => if dst = p then kept' c src else pending c src dst, ?_, ?_⟩
  · intro c src dst
    dsimp only
    by_cases hdst : dst = p
    · subst hdst
      rw [if_pos rfl]
      exact hleft c src
    · rw [if_neg hdst, hother c src dst hdst, hinv.chan]
  · intro c src dst
    dsimp only
    by_cases hdst : dst = p
    · subst hdst
      rw [if_pos rfl, if_pos rfl]
      exact hsplit c src
    · rw [if_neg hdst, if_neg hdst]
      rfl

variable {mine : List α} {needs : List (P × List α)}

theorem coll_index (hinv : Inv fits result plan todo pending s) {c : C}
    (htodo : todo p = ⟨level, .coll c mine needs⟩ :: rest) (hin : s.inside p = true) :
    0 < (s.board c p).length ∧
      (colls c (plan p))[(s.board c p).length - 1]? = some (level, mine) := by
  obtain ⟨given, hgiven, hplan⟩ := hinv.board c p
  have hahead : aheadOf todo s p = rest := by
    rw [aheadOf, hin, htodo]
    rfl
  obtain ⟨pre, hpre⟩ := hinv.suffix p
  have hown : (⟨level, .coll c mine needs⟩ : Op C P α).colls c = [(level, mine)] := if_pos rfl
  have hgiven' : given = colls c pre ++ [(level, mine)] := by
    rw [hahead, ← hpre, htodo, colls_append, colls_cons, hown, ← List.append_assoc] at hplan
    exact List.append_cancel_right hplan
  have hlen : (s.board c p).length = (colls c pre).length + 1 := by
    rw [hgiven, List.length_map, hgiven', List.length_append]
    rfl
  refine ⟨by omega, ?_⟩
  rw [← hplan, hgiven', hlen, Nat.add_sub_cancel, List.append_assoc,
    List.getElem?_append_right (Nat.le_refl _), Nat.sub_self]
  rfl

theorem board_eq (h : Plan procs members plan) (hinv : Inv fits result plan todo pending s) {c : C}
    (htodo : todo p = ⟨level, .coll c mine needs⟩ :: rest) (hin : s.inside p = true)
    {n : P × List α} (hn : n ∈ needs) {msg : List α}
    (hmsg : (s.board c n.1)[(s.board c p).length - 1]? = some msg) : msg = n.2 := by
  obtain ⟨-, hindex⟩ := coll_index hinv htodo hin
  have hmem : (⟨level, .coll c mine needs⟩ : Op C P α) ∈ plan p :=
    (hinv.suffix p).subset (by rw [htodo]; exact List.mem_cons_self)
  obtain ⟨hp, hneeds⟩ := h.needed p _ hmem c mine needs rfl
  obtain ⟨hq, hgives⟩ := hneeds n hn
  obtain ⟨given, hgiven, hplan⟩ := hinv.board c n.1
  generalize (s.board c p).length - 1 = k at hindex hmsg
  rw [hgiven, List.getElem?_map] at hmsg
  obtain ⟨key, hkey, rfl⟩ := Option.map_eq_some_iff.mp hmsg
  have hat : (colls c (plan n.1))[k]? = some key := by
    rw [← hplan]
    obtain ⟨hlt, -⟩ := List.getElem?_eq_some_iff.mp hkey
    rw [List.getElem?_append_left hlt]
    exact hkey
  have hlevel : key.1 = level := by
    have hsame := congrArg (·[k]?) (h.called c p hp n.1 hq)
    rw [List.getElem?_map, List.getElem?_map, hindex, hat] at hsame
    exact (Option.some.inj hsame).symm
  -- the levels of a process are different
  have hpair := colls_pairwise (c := c) (h.ordered n.1)
  obtain ⟨j, hj⟩ := List.getElem?_of_mem hgives
  rcases Nat.lt_trichotomy j k with hlt | rfl | hgt
  · have hord := List.pairwise_iff_getElem.mp hpair
    obtain ⟨hjl, hjv⟩ := List.getElem?_eq_some_iff.mp hj
    obtain ⟨hkl, hkv⟩ := List.getElem?_eq_some_iff.mp hat
    have := hord j k hjl hkl hlt
    rw [hjv, hkv] at this
    dsimp only at this
    omega
  · rw [hat] at hj
    rw [Option.some.inj hj]
  · have hord := List.pairwise_iff_getElem.mp hpair
    obtain ⟨hjl, hjv⟩ := List.getElem?_eq_some_iff.mp hj
    obtain ⟨hkl, hkv⟩ := List.getElem?_eq_some_iff.mp hat
    have := hord k j hkl hjl hgt
    rw [hjv, hkv] at this
    dsimp only at this
    omega

theorem mem_procs (h : Plan procs members plan) (hinv : Inv fits result plan todo pending s) (htodo : todo p = op :: rest) : p ∈ procs := by
  by_contra hnot
  have hsuffix := hinv.suffix p
  rw [h.outside p hnot, List.suffix_nil, htodo] at hsuffix
  exact nomatch hsuffix

omit [DecidableEq C] in
theorem remaining_call (hp : p ∈ procs) (htodo : todo p = op :: rest) (hout : s.inside p = false)
    (hinside : t.inside = update s.inside p true) :
    remaining procs todo s = remaining procs todo t + 1 := by
  refine Runs.sum_step hp ?_ fun q hq => ?_
  · rw [hinside, update_self, htodo, hout, List.length_cons]
    change 2 * (rest.length + 1) - 0 = 2 * (rest.length + 1) - 1 + 1
    omega
  · rw [hinside, update_of_ne hq]

omit [DecidableEq C] in
theorem remaining_finish (hp : p ∈ procs) (htodo : todo p = op :: rest) (hin : s.inside p = true)
    (hinside : t.inside = update s.inside p false) :
    remaining procs todo s = remaining procs (update todo p rest) t + 1 := by
  refine Runs.sum_step hp ?_ fun q hq => ?_
  · rw [hinside, update_self, update_self, htodo, hin, List.length_cons]
    change 2 * (rest.length + 1) - 1 = 2 * rest.length - 0 + 1
    omega
  · rw [hinside, update_of_ne hq, update_of_ne hq]

theorem step_inv (h : Plan procs members plan) (hle : ∀ msg i, fits msg i → msg.length ≤ i.cap)
    (hinv : Inv fits result plan todo pending s) {e : Event P} (hstep : step s e = .ok t) :
    ∃ todo' pending', Inv fits result plan todo' pending' t ∧
      remaining procs todo s = remaining procs todo' t + 1 := by
  cases e with
  | call p =>
    rw [step] at hstep
    split at hstep
    · rename_i out inp next hprog hout
      have hfollows := hinv.follows p
      rw [hprog] at hfollows
      obtain ⟨level, got, rest, htodo, -, -, -⟩ := ops_of_comm hfollows
      obtain rfl := Except.ok.inj hstep
      refine ⟨todo, _, call_inv hinv htodo hout rfl rfl ?_ ?_,
        remaining_call (mem_procs h hinv htodo) htodo hout rfl⟩
      · intro c src dst
        dsimp only
        rw [post_eq]
        simp [Op.outs, Function.comp_def]
      · intro c q
        simp [Op.colls]
    · rename_i comm mine needs next hprog hout
      have hfollows := hinv.follows p
      rw [hprog] at hfollows
      obtain ⟨level, needs', rest, htodo, -, -⟩ := ops_of_coll hfollows
      obtain rfl := Except.ok.inj hstep
      refine ⟨todo, _, call_inv hinv htodo hout rfl rfl ?_ ?_,
        remaining_call (mem_procs h hinv htodo) htodo hout rfl⟩
      · intro c src dst
        simp [Op.outs]
      · intro c q
        dsimp only
        rw [give, Op.colls]
        by_cases hq : q = p
        · by_cases hc : c = comm
          · subst hc
            simp [hq]
          · simp [hc, Ne.symm hc]
        · simp [hq]
    · exact nomatch hstep
  | finish p =>
    rw [step] at hstep
    split at hstep
    · rename_i out inp next hprog hin
      have hfollows := hinv.follows p
      rw [hprog] at hfollows
      obtain ⟨level, got, rest, htodo, rfl, hfits, hrest⟩ := ops_of_comm hfollows
      split at hstep
      · exact nomatch hstep
      · rename_i msgs chan htake
        obtain rfl := Except.ok.inj hstep
        obtain ⟨rfl, pending', hchan, hpending⟩ := take_eq hinv htodo htake
        rw [fit_eq fun g hg => hle _ _ (hfits g hg)]
        exact ⟨_, pending', finish_inv hinv htodo hin rfl hrest rfl rfl hchan hpending,
          remaining_finish (mem_procs h hinv htodo) htodo hin rfl⟩
    · rename_i comm mine needs next hprog hin
      have hfollows := hinv.follows p
      rw [hprog] at hfollows
      obtain ⟨level, needs', rest, htodo, rfl, hrest⟩ := ops_of_coll hfollows
      split at hstep
      · exact nomatch hstep
      · rename_i msgs hlook
        obtain rfl := Except.ok.inj hstep
        obtain rfl := lookAll_eq (fun n hn msg hmsg => board_eq h hinv htodo hin hn hmsg) hlook
        refine ⟨_, pending, finish_inv hinv htodo hin rfl hrest rfl rfl hinv.chan ?_,
          remaining_finish (mem_procs h hinv htodo) htodo hin rfl⟩
        intro c src dst
        simp [Op.inps]
    · exact nomatch hstep

theorem run_inv (h : Plan procs members plan) (hle : ∀ msg i, fits msg i → msg.length ≤ i.cap)
    (hinv : Inv fits result plan todo pending s) {es : List (Event P)} (hrun : Runs.run step s es = .ok t) :
    ∃ todo' pending', Inv fits result plan todo' pending' t ∧
      es.length + remaining procs todo' t = remaining procs todo s := by
  induction es generalizing s todo pending with
  | nil =>
    obtain rfl := Except.ok.inj hrun
    exact ⟨todo, pending, hinv, Nat.zero_add _⟩
  | cons e es ih =>
    obtain ⟨u, hstep, hrest⟩ := Runs.run_cons_eq_ok hrun
    obtain ⟨todo₁, pending₁, hinv₁, hless⟩ := step_inv h hle hinv hstep
    obtain ⟨todo', pending', hinv', hlen⟩ := ih hinv₁ hrest
    refine ⟨todo', pending', hinv', ?_⟩
    rw [List.length_cons]
    omega

omit [DecidableEq C] [DecidableEq P] in
theorem front_of_levels {xs ys as bs : List (Nat × List α)} (heq : xs ++ ys = as ++ bs)
    (has : ∀ k ∈ as, k.1 ≤ n) (hys : ∀ k ∈ ys, n < k.1) : ∃ rest, xs = as ++ rest := by
  rcases List.append_eq_append_iff.mp heq with ⟨mid, has', hys'⟩ | ⟨mid, hxs, -⟩
  · cases mid with
    | nil => exact ⟨[], by rw [has', List.append_nil, List.append_nil]⟩
    | cons k mid =>
      have hlow := has k (by rw [has']; exact List.mem_append_right _ List.mem_cons_self)
      have hhigh := hys k (by rw [hys']; exact List.mem_cons_self)
      omega
  · exact ⟨mid, hxs⟩

theorem ahead_gt (hinv : Inv fits result plan todo pending s)
    (hlow : ∀ q op rest, todo q = op :: rest → n ≤ op.level)
    (hin : ∀ q, todo q ≠ [] → s.inside q = true) (q : P) : ∀ op ∈ aheadOf todo s q, n < op.level := by
  intro op hop
  cases htodo : todo q with
  | nil =>
    rw [aheadOf, htodo, List.tail_nil, Bool.cond_self] at hop
    exact nomatch hop
  | cons head rest =>
    have hhead := hlow q head rest htodo
    have hpair := hinv.ordered q
    rw [htodo] at hpair
    rw [aheadOf, hin q (by rw [htodo]; exact List.cons_ne_nil _ _), htodo] at hop
    have := (List.pairwise_cons.mp hpair).1 op hop
    omega

theorem outs_gt (h : ∀ op ∈ ops, n < op.level) (c : C) (q : P) : ∀ k ∈ outs c q ops, n < k.1 := by
  intro k hk
  obtain ⟨op, hop, hk⟩ := List.mem_flatMap.mp hk
  rw [outs_level hk]
  exact h op hop

theorem inps_gt (h : ∀ op ∈ ops, n < op.level) (c : C) (p : P) : ∀ k ∈ inps c p ops, n < k.1 := by
  intro k hk
  obtain ⟨op, hop, hk⟩ := List.mem_flatMap.mp hk
  rw [inps_level hk]
  exact h op hop

omit [DecidableEq P] in
theorem colls_gt (h : ∀ op ∈ ops, n < op.level) (c : C) : ∀ k ∈ colls c ops, n < k.1 := by
  intro k hk
  obtain ⟨op, hop, hk⟩ := List.mem_flatMap.mp hk
  rw [colls_level hk]
  exact h op hop

section
variable (hinv : Inv fits result plan todo pending s)
include hinv

theorem posted_eq {q : P} (htodo : todo q = op :: rest) (hin : s.inside q = true) (c : C) (src : P) :
    posted s c src q = (op.inps c src).length := by
  have hfollows := hinv.follows q
  rw [htodo] at hfollows
  obtain ⟨level, act⟩ := op
  cases act with
  | comm out got =>
    obtain ⟨next, hprog, -, -⟩ := follows_comm hfollows
    rw [posted, if_pos hin, hprog, Op.inps]
    dsimp only
    rw [List.countP_map, List.length_map, List.countP_eq_length_filter]
    rfl
  | coll comm mine needs =>
    obtain ⟨next, hprog, -⟩ := follows_coll hfollows
    rw [posted, if_pos hin, hprog]
    rfl

theorem lowest_taken
    {got : List (Got C P α)} (htodo : todo p = ⟨level, .comm out got⟩ :: rest)
    (hlow : ∀ q op rest, todo q = op :: rest → level ≤ op.level)
    (hin : ∀ q, todo q ≠ [] → s.inside q = true) : ∃ r, takeAll s.chan p (got.map Got.inp) = some r := by
  have henough : ∀ c src, ∃ rest, s.chan c src p = (part level got c src).map Prod.snd ++ rest := by
    intro c src
    have hagreed := hinv.agreed c src p
    rw [htodo, inps_cons] at hagreed
    obtain ⟨kept, hkept⟩ := front_of_levels hagreed (fun k hk => Nat.le_of_eq (inps_level hk))
      (outs_gt (ahead_gt hinv hlow hin src) c p)
    refine ⟨kept.map Prod.snd, ?_⟩
    rw [hinv.chan, hkept, List.map_append]
    rfl
  exact takeAll_some henough

theorem lowest_posted (htodo : todo p = op :: rest)
    (hlow : ∀ q op' rest', todo q = op' :: rest' → op.level ≤ op'.level)
    (hin : ∀ q, todo q ≠ [] → s.inside q = true) (c : C) (q : P) :
    (s.chan c p q).length ≤ posted s c p q := by
  have hagreed := hinv.agreed c p q
  rw [hinv.chan, List.length_map]
  cases hq : todo q with
  | nil =>
    rw [hq] at hagreed
    obtain ⟨hnil, -⟩ := List.append_eq_nil_iff.mp hagreed
    rw [hnil]
    exact Nat.zero_le _
  | cons op' rest' =>
    rw [posted_eq hinv hq (hin q (by rw [hq]; exact List.cons_ne_nil _ _))]
    rw [hq, inps_cons] at hagreed
    have hpair := hinv.ordered q
    rw [hq] at hpair
    have hrest : ∀ o ∈ rest', op.level < o.level := fun o ho =>
      Nat.lt_of_le_of_lt (hlow q op' rest' hq) ((List.pairwise_cons.mp hpair).1 o ho)
    obtain ⟨free, hfree⟩ := front_of_levels hagreed.symm
      (fun k hk => hinv.sent c p q k hk op (by rw [htodo]; exact List.mem_cons_self)) (inps_gt hrest c p)
    rw [hfree, List.length_append]
    exact Nat.le_add_right _ _

end

theorem lowest_given (h : Plan procs members plan) (hinv : Inv fits result plan todo pending s) {c : C}
    (htodo : todo p = ⟨level, .coll c mine needs⟩ :: rest)
    (hlow : ∀ q op rest, todo q = op :: rest → level ≤ op.level)
    (hin : ∀ q, todo q ≠ [] → s.inside q = true) {q : P} (hp : p ∈ members c) (hq : q ∈ members c) :
    (s.board c p).length ≤ (s.board c q).length := by
  obtain ⟨hpos, hindex⟩ := coll_index hinv htodo (hin p (by rw [htodo]; exact List.cons_ne_nil _ _))
  obtain ⟨given, hgiven, hplan⟩ := hinv.board c q
  have hlen : (s.board c q).length = given.length := by rw [hgiven, List.length_map]
  by_contra hless
  have hsame := congrArg (·[(s.board c p).length - 1]?) (h.called c p hp q hq)
  rw [List.getElem?_map, List.getElem?_map, hindex, ← hplan,
    List.getElem?_append_right (by omega)] at hsame
  obtain ⟨k, hk, hlevel⟩ := Option.map_eq_some_iff.mp hsame.symm
  have := colls_gt (ahead_gt hinv hlow hin q) c k (List.mem_of_getElem? hk)
  dsimp only at hlevel
  omega

theorem progress (h : Plan procs members plan) (hinv : Inv fits result plan todo pending s)
    (hnot : ¬ Finished s) : ∃ e t, Due members s e ∧ step s e = .ok t := by
  have hleft : ∃ p, todo p ≠ [] := by
    by_contra hall
    refine hnot fun p => ⟨result p, ?_⟩
    have hnil : todo p = [] := by
      by_contra hp
      exact hall ⟨p, hp⟩
    have hfollows := hinv.follows p
    rw [hnil] at hfollows
    exact follows_nil hfollows
  by_cases hcall : ∃ q, todo q ≠ [] ∧ s.inside q = false
  · obtain ⟨q, hq, hout⟩ := hcall
    obtain ⟨⟨level, act⟩, rest, htodo⟩ := List.exists_cons_of_ne_nil hq
    have hfollows := hinv.follows q
    rw [htodo] at hfollows
    cases act with
    | comm out got =>
      obtain ⟨next, hprog, -, -⟩ := follows_comm hfollows
      refine ⟨.call q, { s with chan := post s.chan q out, inside := update s.inside q true },
        trivial, ?_⟩
      rw [step, hprog, hout]
    | coll comm mine needs =>
      obtain ⟨next, hprog, -⟩ := follows_coll hfollows
      let t : State C P α R :=
        { s with board := give s.board comm q mine, inside := update s.inside q true }
      refine ⟨.call q, t, trivial, ?_⟩
      rw [step, hprog, hout]
  · have hin : ∀ q, todo q ≠ [] → s.inside q = true := by
      intro q hq
      by_contra hout
      exact hcall ⟨q, hq, Bool.eq_false_iff.mpr hout⟩
    obtain ⟨p, ⟨level, act⟩, rest, htodo, hlow⟩ := Runs.exists_lowest Op.level hleft
    have hthis := hin p (by rw [htodo]; exact List.cons_ne_nil _ _)
    have hfollows := hinv.follows p
    rw [htodo] at hfollows
    cases act with
    | comm out got =>
      obtain ⟨next, hprog, -, -⟩ := follows_comm hfollows
      obtain ⟨⟨msgs, chan⟩, htake⟩ := lowest_taken hinv htodo hlow hin
      refine ⟨.finish p, goOn { s with chan := chan } p (next (fit (got.map Got.inp) msgs)), ?_, ?_⟩
      · rw [Due, hprog]
        exact fun o _ => lowest_posted hinv htodo hlow hin o.comm o.dst
      · rw [step, hprog, hthis]
        dsimp only
        rw [htake]
    | coll comm mine needs =>
      obtain ⟨next, hprog, -⟩ := follows_coll hfollows
      obtain ⟨hp, hneeds⟩ := h.needed p ⟨level, .coll comm mine needs⟩
        ((hinv.suffix p).subset (by rw [htodo]; exact List.mem_cons_self)) comm mine needs rfl
      have hgiven : ∀ q ∈ members comm, (s.board comm p).length ≤ (s.board comm q).length :=
        fun q hq => lowest_given h hinv htodo hlow hin hp hq
      obtain ⟨hpos, -⟩ := coll_index hinv htodo hthis
      have hthere : ∀ q ∈ needs.map Prod.fst, (s.board comm p).length - 1 < (s.board comm q).length := by
        intro q hq
        obtain ⟨n, hn, rfl⟩ := List.mem_map.mp hq
        have := hgiven n.1 (hneeds n hn).1
        omega
      obtain ⟨msgs, hlook⟩ := lookAll_some hthere
      refine ⟨.finish p, goOn s p (next msgs), ?_, ?_⟩
      · rw [Due, hprog]
        exact hgiven
      · rw [step, hprog, hthis]
        dsimp only
        rw [hlook]

theorem inv_fitting (hinv : Inv fits result plan todo pending s)
    {inp : List (Inp C P)} {next : List (List α) → Prog C P α R} (hprog : s.prog p = .comm out inp next)
    {msgs : List (List α)} {chan : C → P → P → List (List α)}
    (htake : takeAll s.chan p inp = some (msgs, chan)) :
    List.Forall₂ (fun i msg => fits msg i) inp msgs := by
  have hfollows := hinv.follows p
  rw [hprog] at hfollows
  obtain ⟨level, got, rest, htodo, rfl, hfits, -⟩ := ops_of_comm hfollows
  obtain ⟨rfl, -⟩ := take_eq hinv htodo htake
  exact forall₂_got hfits

theorem inv_result (hinv : Inv fits result plan todo pending s) {r : R} (hprog : s.prog p = .done r) :
    todo p = [] ∧ r = result p := by
  have hfollows := hinv.follows p
  rw [hprog] at hfollows
  match htodo : todo p, hfollows with
  | [], hfollows => exact ⟨rfl, hfollows⟩
  | ⟨_, .comm ..⟩ :: _, hfollows => exact nomatch hfollows
  | ⟨_, .coll ..⟩ :: _, hfollows => exact nomatch hfollows

end Invariant

theorem Plan.computes {C P α R : Type} [DecidableEq C] [DecidableEq P] {procs : Finset P}
    {members : C → Finset P} {fits : List α → Inp C P → Prop} {plan : P → List (Op C P α)}
    {prog : P → Prog C P α R} {result : P → R} (h : Plan procs members plan)
    (hle : ∀ msg i, fits msg i → msg.length ≤ i.cap) (hfollows : ∀ p, Follows fits (result p) (plan p) (prog p)) :
    Computes members fits prog result := by
  have hinit := init_inv h hfollows
  refine ⟨⟨remaining procs plan (init prog), ?_⟩, ?_, ?_, ?_, ?_⟩
  · intro es s hrun
    obtain ⟨todo, pending, -, hlen⟩ := run_inv h hle hinit hrun
    omega
  · intro es s hrun hnot
    obtain ⟨todo, pending, hinv, -⟩ := run_inv h hle hinit hrun
    exact progress h hinv hnot
  · intro es s hrun p out inp next msgs chan hprog _ htake
    obtain ⟨todo, pending, hinv, -⟩ := run_inv h hle hinit hrun
    exact inv_fitting hinv hprog htake
  · intro es s hrun p r hprog
    obtain ⟨todo, pending, hinv, -⟩ := run_inv h hle hinit hrun
    exact (inv_result hinv hprog).2
  · intro es s hrun hfin c p q
    obtain ⟨todo, pending, hinv, -⟩ := run_inv h hle hinit hrun
    obtain ⟨r, hr⟩ := hfin q
    have hagreed := hinv.agreed c p q
    rw [(inv_result hinv hr).1] at hagreed
    obtain ⟨hnil, -⟩ := List.append_eq_nil_iff.mp hagreed
    rw [hinv.chan, hnil]
    rfl

section Results
variable {C P α R : Type} [DecidableEq C] [DecidableEq P] {members members' : C → Finset P}
variable {fits fits' : List α → Inp C P → Prop} {prog : P → Prog C P α R} {result result' : P → R}

theorem Computes.finishes (h : Computes members fits prog result) :
    ∃ es s, Runs.run step (init prog) es = .ok s ∧ Finished s := by
  obtain ⟨n, hn⟩ := h.bounded
  have hgo : ∀ k es s, Runs.run step (init prog) es = .ok s → n ≤ es.length + k →
      ∃ es s, Runs.run step (init prog) es = .ok s ∧ Finished s := by
    intro k
    induction k with
    | zero =>
      intro es s hrun hle
      refine ⟨es, s, hrun, by_contra fun hnot => ?_⟩
      obtain ⟨e, t, -, hstep⟩ := h.progress es s hrun hnot
      have hlen := hn (es ++ [e]) t ((Runs.run_append_of_ok hrun [e]).trans (Runs.run_cons_ok hstep []))
      rw [List.length_append, List.length_singleton] at hlen
      omega
    | succ k ih =>
      intro es s hrun hle
      by_cases hfin : Finished s
      · exact ⟨es, s, hrun, hfin⟩
      · obtain ⟨e, t, -, hstep⟩ := h.progress es s hrun hfin
        refine ih (es ++ [e]) t ((Runs.run_append_of_ok hrun [e]).trans (Runs.run_cons_ok hstep [])) ?_
        rw [List.length_append, List.length_singleton]
        omega
  exact hgo n [] _ rfl (by omega)

theorem Computes.result_eq (h : Computes members fits prog result) (h' : Computes members' fits' prog result') :
    result = result' := by
  obtain ⟨es, s, hrun, hfin⟩ := h.finishes
  funext p
  obtain ⟨r, hr⟩ := hfin p
  rw [← h.results es s hrun p r hr, ← h'.results es s hrun p r hr]

end Results

theorem Plan.board_prefix {C P α R : Type} [DecidableEq C] [DecidableEq P] {procs : Finset P}
    {members : C → Finset P} {fits : List α → Inp C P → Prop} {plan : P → List (Op C P α)}
    {prog : P → Prog C P α R} {result : P → R} (h : Plan procs members plan)
    (hle : ∀ msg i, fits msg i → msg.length ≤ i.cap) (hfollows : ∀ p, Follows fits (result p) (plan p) (prog p))
    {es : List (Event P)} {s : State C P α R} (hrun : Runs.run step (init prog) es = .ok s) (c : C) (p : P) :
    s.board c p <+: (colls c (plan p)).map Prod.snd ∧
      (Finished s → s.board c p = (colls c (plan p)).map Prod.snd) := by
  obtain ⟨todo, pending, hinv, -⟩ := run_inv h hle (init_inv h hfollows) hrun
  obtain ⟨given, hgiven, hplan⟩ := hinv.board c p
  refine ⟨?_, fun hfin => ?_⟩
  · rw [hgiven, ← hplan, List.map_append]
    exact List.prefix_append _ _
  · obtain ⟨r, hr⟩ := hfin p
    rw [aheadOf, (inv_result hinv hr).1, List.tail_nil, Bool.cond_self] at hplan
    rw [hgiven, ← hplan, colls, List.flatMap_nil, List.append_nil]

end FgMpi.Machine.Dialogues
