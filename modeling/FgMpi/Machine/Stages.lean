import FgMpi.Machine.Dialogues

/-! A plan says for every level what each process does there. -/

namespace FgMpi.Machine.Dialogues

section Stages
variable {C P α : Type}

def Act.idle : Act C P α := .comm [] []

def Act.isIdle : Act C P α → Bool
  | .comm [] [] => true
  | _ => false

def staged (act : Nat → Act C P α) : Nat → Nat → List (Op C P α)
  | _, 0 => []
  | k, n + 1 =>
    if (act k).isIdle then staged act (k + 1) n else ⟨k, act k⟩ :: staged act (k + 1) n

variable {act : Nat → Act C P α} {k n : Nat}

variable {a : Act C P α}

theorem isIdle_iff : a.isIdle = true ↔ a = .idle := by
  unfold Act.isIdle Act.idle
  split
  · exact ⟨fun _ => rfl, fun _ => rfl⟩
  · rename_i h
    exact ⟨fun hand => (nomatch hand), fun hand => (h hand).elim⟩

theorem staged_idle (h : act k = .idle) : staged act k (n + 1) = staged act (k + 1) n := by
  rw [staged, if_pos (isIdle_iff.mpr h)]

theorem staged_busy (h : act k ≠ .idle) : staged act k (n + 1) = ⟨k, act k⟩ :: staged act (k + 1) n := by
  rw [staged, if_neg fun hidle => h (isIdle_iff.mp hidle)]

theorem staged_send {o : Out C P α} {out : List (Out C P α)} {got : List (Got C P α)}
    (h : act k = .comm (o :: out) got) :
    staged act k (n + 1) = ⟨k, .comm (o :: out) got⟩ :: staged act (k + 1) n := by
  rw [staged_busy (by rw [h]; exact nofun), h]

theorem staged_recv {g : Got C P α} {out : List (Out C P α)} {got : List (Got C P α)}
    (h : act k = .comm out (g :: got)) :
    staged act k (n + 1) = ⟨k, .comm out (g :: got)⟩ :: staged act (k + 1) n := by
  rw [staged_busy (by rw [h]; exact nofun), h]

theorem staged_coll {c : C} {mine : List α} {needs : List (P × List α)} (h : act k = .coll c mine needs) :
    staged act k (n + 1) = ⟨k, .coll c mine needs⟩ :: staged act (k + 1) n := by
  rw [staged_busy (by rw [h]; exact nofun), h]

theorem staged_skip {m : Nat} (h : ∀ j, k ≤ j → j < k + m → act j = .idle) :
    staged act k (m + n) = staged act (k + m) n := by
  induction m generalizing k with
  | zero => rw [Nat.zero_add, Nat.add_zero]
  | succ m ih =>
    rw [Nat.add_right_comm, staged_idle (h k (Nat.le_refl _) (by omega)),
      ih fun j hj hlt => h j (by omega) (by omega)]
    congr 1
    omega

theorem staged_nothing (h : ∀ j, k ≤ j → j < k + n → act j = .idle) : staged act k n = [] :=
  staged_skip (n := 0) h

theorem mem_staged {op : Op C P α} (h : op ∈ staged act k n) :
    k ≤ op.level ∧ op.level < k + n ∧ op.act = act op.level := by
  induction n generalizing k with
  | zero => exact nomatch h
  | succ n ih =>
    rw [staged] at h
    split at h
    · obtain ⟨hlow, hhigh, hact⟩ := ih h
      exact ⟨by omega, by omega, hact⟩
    · rcases List.mem_cons.mp h with rfl | hrest
      · exact ⟨Nat.le_refl _, by dsimp only; omega, rfl⟩
      · obtain ⟨hlow, hhigh, hact⟩ := ih hrest
        exact ⟨by omega, by omega, hact⟩

theorem staged_ordered (act : Nat → Act C P α) (k n : Nat) :
    (staged act k n).Pairwise fun a b => a.level < b.level := by
  induction n generalizing k with
  | zero => exact List.Pairwise.nil
  | succ n ih =>
    rw [staged]
    split
    · exact ih (k + 1)
    · exact List.pairwise_cons.mpr ⟨fun op hop => (mem_staged hop).1, ih (k + 1)⟩

variable [DecidableEq C] [DecidableEq P]

def Agree (act : P → Act C P α) : Prop :=
  ∀ k c p q, (⟨k, act p⟩ : Op C P α).outs c q = (⟨k, act q⟩ : Op C P α).inps c p

theorem idle_outs (k : Nat) (c : C) (q : P) : (⟨k, .idle⟩ : Op C P α).outs c q = [] := rfl

theorem idle_inps (k : Nat) (c : C) (p : P) : (⟨k, .idle⟩ : Op C P α).inps c p = [] := rfl

omit [DecidableEq P] in
theorem idle_colls (k : Nat) (c : C) : (⟨k, .idle⟩ : Op C P α).colls c = [] := rfl

omit [DecidableEq C] [DecidableEq P] in
theorem flatMap_staged {β : Type} {sel : Op C P α → List β} (hidle : ∀ k, sel ⟨k, .idle⟩ = [])
    (act : Nat → Act C P α) (k n : Nat) :
    (staged act k n).flatMap sel = (List.range' k n).flatMap fun j => sel ⟨j, act j⟩ := by
  induction n generalizing k with
  | zero => rfl
  | succ n ih =>
    rw [List.range'_succ, List.flatMap_cons, ← ih (k + 1)]
    by_cases h : act k = .idle
    · rw [staged_idle h, h, hidle, List.nil_append]
    · rw [staged_busy h, List.flatMap_cons]

structure LevelAgree (members : C → Finset P) (act : P → Act C P α) : Prop where
  messages : Agree act
  called : ∀ c, ∀ p ∈ members c, ∀ q ∈ members c, ∀ mine needs, act p = .coll c mine needs →
    ∃ mine' needs', act q = .coll c mine' needs'
  needed : ∀ p c mine needs, act p = .coll c mine needs →
    p ∈ members c ∧ ∀ n ∈ needs, n.1 ∈ members c ∧ ∃ needs', act n.1 = .coll c n.2 needs'

variable {procs : Finset P} {members : C → Finset P}

omit [DecidableEq P] in
theorem colls_of_coll {c : C} {mine : List α} {needs : List (P × List α)}
    (h : a = .coll c mine needs) (k : Nat) : (⟨k, a⟩ : Op C P α).colls c = [(k, mine)] := by
  subst h
  exact if_pos rfl

omit [DecidableEq P] in
theorem colls_of_other {c : C} (h : ∀ mine needs, a ≠ .coll c mine needs) (k : Nat) :
    (⟨k, a⟩ : Op C P α).colls c = [] := by
  cases a with
  | comm out got => rfl
  | coll comm mine needs =>
    refine if_neg fun heq => h mine needs ?_
    rw [heq]

theorem LevelAgree.same_calls {act : P → Act C P α} (h : LevelAgree members act) {c : C} {p q : P}
    (hp : p ∈ members c) (hq : q ∈ members c) (k : Nat) :
    ((⟨k, act p⟩ : Op C P α).colls c).map Prod.fst = ((⟨k, act q⟩ : Op C P α).colls c).map Prod.fst := by
  by_cases hthis : ∃ mine needs, act p = .coll c mine needs
  · obtain ⟨mine, needs, hact⟩ := hthis
    obtain ⟨mine', needs', hact'⟩ := h.called c p hp q hq mine needs hact
    rw [colls_of_coll hact, colls_of_coll hact']
    rfl
  · have hother : ∀ mine needs, act q ≠ .coll c mine needs := fun mine needs hact =>
      hthis (h.called c q hq p hp mine needs hact)
    rw [colls_of_other (fun mine needs hact => hthis ⟨mine, needs, hact⟩), colls_of_other hother]

theorem levels_plan {act : P → Nat → Act C P α} {n : Nat}
    (hagree : ∀ k < n, LevelAgree members fun p => act p k) (houtside : ∀ p ∉ procs, ∀ k < n, act p k = .idle) :
    Plan procs members fun p => staged (act p) 0 n := by
  refine ⟨fun p => staged_ordered _ _ _, fun c p q => ?_, fun c p hp q hq => ?_, ?_, fun p hp => ?_⟩
  · rw [outs, inps, flatMap_staged fun k => idle_outs k c q, flatMap_staged fun k => idle_inps k c p]
    refine List.flatMap_congr fun k hk => ?_
    obtain ⟨-, hlt⟩ := List.mem_range'_1.mp hk
    exact (hagree k (by omega)).messages k c p q
  · rw [colls, colls, flatMap_staged fun k => idle_colls k c, flatMap_staged fun k => idle_colls k c,
      List.map_flatMap, List.map_flatMap]
    refine List.flatMap_congr fun k hk => ?_
    obtain ⟨-, hlt⟩ := List.mem_range'_1.mp hk
    exact (hagree k (by omega)).same_calls hp hq k
  · intro p op hop c mine needs hact
    obtain ⟨-, hlt, hthis⟩ := mem_staged hop
    obtain ⟨hp, hneeds⟩ := (hagree op.level (by omega)).needed p c mine needs (hthis.symm.trans hact)
    refine ⟨hp, fun n hn => ?_⟩
    obtain ⟨hmem, needs', hact'⟩ := hneeds n hn
    refine ⟨hmem, ?_⟩
    rw [colls, flatMap_staged fun k => idle_colls k c]
    refine List.mem_flatMap.mpr ⟨op.level, List.mem_range'_1.mpr ⟨Nat.zero_le _, hlt⟩, ?_⟩
    rw [colls_of_coll hact']
    exact List.mem_singleton_self _
  · exact staged_nothing fun k _ hk => houtside p hp k (by omega)

theorem Agree.level {act : P → Act C P α} (hagree : Agree act)
    (hcomm : ∀ p c mine needs, act p ≠ .coll c mine needs) : LevelAgree members act where
  messages := hagree
  called _ p _ _ _ mine needs h := absurd h (hcomm p _ mine needs)
  needed p c mine needs h := absurd h (hcomm p c mine needs)

theorem staged_plan {procs : Finset P} {members : C → Finset P} {act : P → Nat → Act C P α} {n : Nat}
    (hagree : ∀ k < n, Agree fun p => act p k) (hcomm : ∀ p k c mine needs, act p k ≠ .coll c mine needs)
    (houtside : ∀ p ∉ procs, ∀ k < n, act p k = .idle) :
    Plan procs members fun p => staged (act p) 0 n :=
  levels_plan (fun k hk => (hagree k hk).level fun p => hcomm p k) houtside

end Stages

section Roles
variable {C P Q α : Type}

def Act.rename (real : Q → P) : Act C Q α → Act C P α
  | .comm out got =>
    .comm (out.map fun o => ⟨o.comm, real o.dst, o.msg⟩)
      (got.map fun g => ⟨g.comm, real g.src, g.off, g.cap, g.msg⟩)
  | .coll c mine needs => .coll c mine (needs.map fun n => (real n.1, n.2))

def playing (role : P → Option Q) (real : Q → P) (act : Q → Act C Q α) (p : P) : Act C P α :=
  match role p with
  | none => .idle
  | some s => (act s).rename real

def Act.dsts : Act C P α → List P
  | .comm out _ => out.map Out.dst
  | .coll .. => []

def Act.srcs : Act C P α → List P
  | .comm _ got => got.map Got.src
  | .coll .. => []

variable [DecidableEq C] [DecidableEq P] [DecidableEq Q] {role : P → Option Q} {real : Q → P}
variable {act : Q → Act C Q α}

variable {a : Act C Q α}

omit [DecidableEq P] in
theorem mem_dsts {d : Q} (h : d ∈ a.dsts) (k : Nat) : ∃ c, (⟨k, a⟩ : Op C Q α).outs c d ≠ [] := by
  cases a with
  | coll comm mine needs => exact nomatch h
  | comm out got =>
    obtain ⟨o, ho, rfl⟩ := List.mem_map.mp h
    refine ⟨o.comm, List.ne_nil_of_mem (List.mem_map.mpr ⟨o, List.mem_filter.mpr ⟨ho, ?_⟩, rfl⟩)⟩
    exact decide_eq_true ⟨rfl, rfl⟩

omit [DecidableEq P] in
theorem mem_srcs {d : Q} (h : d ∈ a.srcs) (k : Nat) : ∃ c, (⟨k, a⟩ : Op C Q α).inps c d ≠ [] := by
  cases a with
  | coll comm mine needs => exact nomatch h
  | comm out got =>
    obtain ⟨g, hg, rfl⟩ := List.mem_map.mp h
    refine ⟨g.comm, List.ne_nil_of_mem (List.mem_map.mpr ⟨g, List.mem_filter.mpr ⟨hg, ?_⟩, rfl⟩)⟩
    exact decide_eq_true ⟨rfl, rfl⟩

theorem outs_rename {t : Q} (h : ∀ d ∈ a.dsts, real d = real t → d = t) (k : Nat) (c : C) :
    (⟨k, a.rename real⟩ : Op C P α).outs c (real t) = (⟨k, a⟩ : Op C Q α).outs c t := by
  cases a with
  | coll comm mine needs => rfl
  | comm out got =>
    unfold Op.outs Act.rename
    dsimp only
    rw [List.filter_map, List.map_map]
    have hsame : out.filter ((fun o : Out C P α => decide (o.comm = c ∧ o.dst = real t)) ∘
        fun o => ⟨o.comm, real o.dst, o.msg⟩) = out.filter fun o => decide (o.comm = c ∧ o.dst = t) := by
      refine List.filter_congr fun o ho => ?_
      rw [Function.comp_apply, decide_eq_decide]
      have hdst := h o.dst (List.mem_map_of_mem ho)
      exact and_congr_right fun _ => ⟨hdst, fun heq => congrArg real heq⟩
    rw [hsame]
    rfl

theorem inps_rename {s : Q} (h : ∀ d ∈ a.srcs, real d = real s → d = s) (k : Nat) (c : C) :
    (⟨k, a.rename real⟩ : Op C P α).inps c (real s) = (⟨k, a⟩ : Op C Q α).inps c s := by
  cases a with
  | coll comm mine needs => rfl
  | comm out got =>
    unfold Op.inps Act.rename
    dsimp only
    rw [List.filter_map, List.map_map]
    have hsame : got.filter ((fun g : Got C P α => decide (g.comm = c ∧ g.src = real s)) ∘
        fun g => ⟨g.comm, real g.src, g.off, g.cap, g.msg⟩) =
          got.filter fun g => decide (g.comm = c ∧ g.src = s) := by
      refine List.filter_congr fun g hg => ?_
      rw [Function.comp_apply, decide_eq_decide]
      have hsrc := h g.src (List.mem_map_of_mem hg)
      exact and_congr_right fun _ => ⟨hsrc, fun heq => congrArg real heq⟩
    rw [hsame]
    rfl

omit [DecidableEq C] [DecidableEq P] [DecidableEq Q] in
theorem dsts_rename {d : P} (h : d ∈ (a.rename real).dsts) : ∃ t ∈ a.dsts, real t = d := by
  cases a with
  | coll comm mine needs => exact nomatch h
  | comm out got =>
    obtain ⟨o', ho', rfl⟩ := List.mem_map.mp h
    obtain ⟨o, ho, rfl⟩ := List.mem_map.mp ho'
    exact ⟨o.dst, List.mem_map_of_mem ho, rfl⟩

omit [DecidableEq C] [DecidableEq P] [DecidableEq Q] in
theorem srcs_rename {d : P} (h : d ∈ (a.rename real).srcs) : ∃ t ∈ a.srcs, real t = d := by
  cases a with
  | coll comm mine needs => exact nomatch h
  | comm out got =>
    obtain ⟨g', hg', rfl⟩ := List.mem_map.mp h
    obtain ⟨g, hg, rfl⟩ := List.mem_map.mp hg'
    exact ⟨g.src, List.mem_map_of_mem hg, rfl⟩

theorem outs_nil {a : Act C P α} {q : P} (h : q ∉ a.dsts) (k : Nat) (c : C) :
    (⟨k, a⟩ : Op C P α).outs c q = [] := by
  cases a with
  | coll comm mine needs => rfl
  | comm out got =>
    refine List.map_eq_nil_iff.mpr (List.filter_eq_nil_iff.mpr fun o ho hthis => h ?_)
    rw [← (of_decide_eq_true hthis).2]
    exact List.mem_map_of_mem ho

theorem inps_nil {a : Act C P α} {p : P} (h : p ∉ a.srcs) (k : Nat) (c : C) :
    (⟨k, a⟩ : Op C P α).inps c p = [] := by
  cases a with
  | coll comm mine needs => rfl
  | comm out got =>
    refine List.map_eq_nil_iff.mpr (List.filter_eq_nil_iff.mpr fun g hg hthis => h ?_)
    rw [← (of_decide_eq_true hthis).2]
    exact List.mem_map_of_mem hg

theorem playing_agree (hagree : Agree act) {ok : Q → Prop} (hidle : ∀ s, ¬ ok s → act s = .idle)
    (hreal : ∀ p s, role p = some s → ok s ∧ real s = p) (hrole : ∀ s, ok s → role (real s) = some s) :
    Agree (playing role real act) := by
  have hinj : ∀ s t, ok s → ok t → real s = real t → s = t := by
    intro s t hs ht heq
    have hrs := hrole s hs
    rw [heq, hrole t ht] at hrs
    exact (Option.some.inj hrs).symm
  have hdst : ∀ s, ∀ d ∈ (act s).dsts, ok d := by
    intro s d hd
    by_contra hnot
    obtain ⟨c, hne⟩ := mem_dsts hd 0
    rw [hagree 0 c s d, hidle d hnot] at hne
    exact hne rfl
  have hsrc : ∀ t, ∀ d ∈ (act t).srcs, ok d := by
    intro t d hd
    by_contra hnot
    obtain ⟨c, hne⟩ := mem_srcs hd 0
    rw [← hagree 0 c d t, hidle d hnot] at hne
    exact hne rfl
  intro k c p q
  unfold playing
  cases hp : role p with
  | none =>
    cases hq : role q with
    | none => rfl
    | some t =>
      dsimp only
      rw [idle_outs, inps_nil]
      intro hmem
      obtain ⟨s, hs, rfl⟩ := srcs_rename hmem
      rw [hrole s (hsrc t s hs)] at hp
      exact nomatch hp
  | some s =>
    obtain ⟨hs, rfl⟩ := hreal p s hp
    cases hq : role q with
    | none =>
      dsimp only
      rw [idle_inps, outs_nil]
      intro hmem
      obtain ⟨t, ht, rfl⟩ := dsts_rename hmem
      rw [hrole t (hdst s t ht)] at hq
      exact nomatch hq
    | some t =>
      obtain ⟨ht, rfl⟩ := hreal q t hq
      dsimp only
      rw [outs_rename fun d hd => hinj d t (hdst s d hd) ht,
        inps_rename fun d hd => hinj d s (hsrc t d hd) hs]
      exact hagree k c s t

end Roles

section Exchange
variable {C P Q α : Type}

def exchange (comm : C) (dst src : P → Option P) (msg : P → List α) (room : P → Nat × Nat) (p : P) :
    Act C P α :=
  .comm ((dst p).toList.map fun q => ⟨comm, q, msg p⟩)
    ((src p).toList.map fun q => ⟨comm, q, (room p).1, (room p).2, msg q⟩)

variable {comm : C} {dst src : P → Option P} {msg : P → List α} {room : P → Nat × Nat} {p q q' : P}

theorem exchange_idle (hdst : dst p = none) (hsrc : src p = none) :
    exchange comm dst src msg room p = .idle := by
  rw [exchange, hdst, hsrc]
  rfl

theorem exchange_send (hdst : dst p = some q) (hsrc : src p = none) :
    exchange comm dst src msg room p = .comm [⟨comm, q, msg p⟩] [] := by
  rw [exchange, hdst, hsrc]
  rfl

theorem exchange_recv (hdst : dst p = none) (hsrc : src p = some q) :
    exchange comm dst src msg room p = .comm [] [⟨comm, q, (room p).1, (room p).2, msg q⟩] := by
  rw [exchange, hdst, hsrc]
  rfl

theorem exchange_both (hdst : dst p = some q) (hsrc : src p = some q') :
    exchange comm dst src msg room p =
      .comm [⟨comm, q, msg p⟩] [⟨comm, q', (room p).1, (room p).2, msg q'⟩] := by
  rw [exchange, hdst, hsrc]
  rfl

theorem playing_none {role : P → Option Q} {real : Q → P} {act : Q → Act C Q α} (h : role p = none) :
    playing role real act p = .idle := by
  rw [playing, h]

theorem playing_some {role : P → Option Q} {real : Q → P} {act : Q → Act C Q α} {s : Q}
    (h : role p = some s) : playing role real act p = (act s).rename real := by
  rw [playing, h]

variable [DecidableEq C] [DecidableEq P]

theorem exchange_agree (h : ∀ p q, dst p = some q ↔ src q = some p) :
    Agree (exchange comm dst src msg room) := by
  intro k c p q
  unfold Op.outs Op.inps exchange
  dsimp only
  by_cases hthis : dst p = some q
  · rw [hthis, (h p q).mp hthis]
    by_cases hc : comm = c
    · simp [hc]
    · simp [hc]
  · have hout : ∀ o ∈ (dst p).toList.map fun q => (⟨comm, q, msg p⟩ : Out C P α), o.dst ≠ q := by
      intro o ho heq
      obtain ⟨q', hq', rfl⟩ := List.mem_map.mp ho
      exact hthis (heq ▸ Option.mem_toList.mp hq')
    have hinp : ∀ g ∈ (src q).toList.map fun p => (⟨comm, p, (room q).1, (room q).2, msg p⟩ : Got C P α),
        g.src ≠ p := by
      intro g hg heq
      obtain ⟨p', hp', rfl⟩ := List.mem_map.mp hg
      exact hthis ((h p q).mpr (heq ▸ Option.mem_toList.mp hp'))
    rw [List.filter_eq_nil_iff.mpr fun o ho hand => hout o ho (of_decide_eq_true hand).2,
      List.filter_eq_nil_iff.mpr fun g hg hand => hinp g hg (of_decide_eq_true hand).2]
    rfl

end Exchange

section Collecting
variable {C P α : Type}

def collecting (group : P → Option C) (mine : P → List α) (wants : P → List P) (p : P) : Act C P α :=
  match group p with
  | none => .idle
  | some c => .coll c (mine p) ((wants p).map fun q => (q, mine q))

variable {group : P → Option C} {mine : P → List α} {wants : P → List P} {p : P} {c : C}

theorem collecting_none (h : group p = none) : collecting group mine wants p = .idle := by
  rw [collecting, h]

theorem collecting_some (h : group p = some c) :
    collecting group mine wants p = .coll c (mine p) ((wants p).map fun q => (q, mine q)) := by
  rw [collecting, h]

theorem group_of_collecting {given : List α} {needs : List (P × List α)}
    (h : collecting group mine wants p = .coll c given needs) :
    group p = some c ∧ given = mine p ∧ needs = (wants p).map fun q => (q, mine q) := by
  cases hgroup : group p with
  | none =>
    rw [collecting_none hgroup] at h
    exact nomatch h
  | some c' =>
    rw [collecting_some hgroup] at h
    obtain ⟨rfl, rfl, rfl⟩ := Act.coll.inj h
    exact ⟨rfl, rfl, rfl⟩

variable [DecidableEq C] [DecidableEq P] {members : C → Finset P}

theorem collecting_agree (hgroup : ∀ p c, group p = some c → p ∈ members c ∧ ∀ q ∈ members c, group q = some c)
    (hwants : ∀ p c, group p = some c → ∀ q ∈ wants p, q ∈ members c) :
    LevelAgree members (collecting (P := P) group mine wants) where
  messages k c p q := by
    have houts : (⟨k, collecting group mine wants p⟩ : Op C P α).outs c q = [] := by
      unfold collecting
      split <;> rfl
    have hinps : (⟨k, collecting group mine wants q⟩ : Op C P α).inps c p = [] := by
      unfold collecting
      split <;> rfl
    rw [houts, hinps]
  called c p _ q hq given needs h := by
    obtain ⟨hp, -, -⟩ := group_of_collecting h
    exact ⟨_, _, collecting_some ((hgroup p c hp).2 q hq)⟩
  needed p c given needs h := by
    obtain ⟨hp, -, rfl⟩ := group_of_collecting h
    refine ⟨(hgroup p c hp).1, fun n hn => ?_⟩
    obtain ⟨q, hq, rfl⟩ := List.mem_map.mp hn
    have hmem := hwants p c hp q hq
    exact ⟨hmem, _, collecting_some ((hgroup p c hp).2 q hmem)⟩

end Collecting

end FgMpi.Machine.Dialogues
