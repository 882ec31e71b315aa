import FgMpi.Coll.Barrier

namespace FgMpi.Coll.Barrier
open Comm.NestedMaps Hierarchy FlatBarrier
open Function (update update_of_ne update_self)

theorem countP_step {l : List Proc} (hnodup : l.Nodup) {p : Proc} (hp : p ∈ l) {P Q : Proc → Bool}
    (hP : P p = false) (hQ : Q p = true) (hsame : ∀ x ∈ l, x ≠ p → Q x = P x) :
    l.countP Q = l.countP P + 1 := by
  induction l with
  | nil => exact nomatch hp
  | cons x l ih =>
    rw [List.nodup_cons] at hnodup
    rw [List.countP_cons, List.countP_cons]
    by_cases hx : x = p
    · subst hx
      have hrest : l.countP Q = l.countP P := by
        refine List.countP_congr fun y hy => ?_
        have hne : y ≠ x := by
          rintro rfl
          exact hnodup.1 hy
        rw [hsame y (List.mem_cons_of_mem _ hy) hne]
      rw [hrest, hP, hQ]
      simp
    · have hmem : p ∈ l := (List.mem_cons.mp hp).resolve_left (Ne.symm hx)
      rw [ih hnodup.2 hmem (fun y hy => hsame y (List.mem_cons_of_mem _ hy)),
        hsame x List.mem_cons_self hx]
      omega

section Members
variable (place : Placement) (ranks : List Proc)

def teammates (l : Proc) : List Proc := (colocated place ranks (place.pid l)).filter (· ≠ l)

variable {l w : Proc}

theorem mem_teammates {p : Proc} :
    p ∈ teammates place ranks l ↔ p ∈ ranks ∧ place.pid p = place.pid l ∧ p ≠ l := by
  simp only [teammates, colocated, List.mem_filter, decide_eq_true_eq, and_assoc]

theorem teammates_length (hnodup : ranks.Nodup) (hl : l ∈ ranks) :
    (teammates place ranks l).length = (colocated place ranks (place.pid l)).length - 1 := by
  have hco : (colocated place ranks (place.pid l)).Nodup := hnodup.filter _
  have hmem := mem_colocated place hl
  have herase : teammates place ranks l = (colocated place ranks (place.pid l)).erase l := by
    rw [hco.erase_eq_filter, teammates]
    refine List.filter_congr fun x _ => ?_
    by_cases hx : x = l <;> simp [hx]
  rw [herase, List.length_erase_of_mem hmem]

theorem colocated_length {p : Proc} (hp : p ∈ teammates place ranks l) (hl : l ∈ ranks) :
    1 < (colocated place ranks (place.pid l)).length := by
  obtain ⟨hpr, hpid, hne⟩ := (mem_teammates place ranks).mp hp
  have hpm : p ∈ colocated place ranks (place.pid l) := hpid ▸ mem_colocated place hpr
  have hlm := mem_colocated place hl
  by_contra hnot
  have hone : (colocated place ranks (place.pid l)).length = 1 := by
    have := List.length_pos_of_mem hlm
    omega
  obtain ⟨x, hx⟩ := List.length_eq_one_iff.mp hone
  rw [hx, List.mem_singleton] at hpm hlm
  exact hne (hpm.trans hlm.symm)

theorem teammates_nodup (hnodup : ranks.Nodup) : (teammates place ranks l).Nodup :=
  (hnodup.filter _).filter _

/-- The shared variables of an OS process with leader `l`; `s.left l` rounds are over. -/
structure Team (s : CommState) (l : Proc) : Prop where
  signal : (s.vars (place.pid l)).coprocletSignal = s.left l % 2
  counter : (s.vars (place.pid l)).coprocletCounter =
    (teammates place ranks l).countP (fun p => s.entered p = s.left l + 1)
  leaderSignal : (s.vars (place.pid l)).leaderSignal =
    if (s.vars (place.pid l)).coprocletCounter = (teammates place ranks l).length then 1 else 0
  members : ∀ p ∈ teammates place ranks l,
    s.left p ≤ s.left l ∧ s.left l ≤ s.entered p ∧ s.entered p ≤ s.left l + 1 ∧ s.entered p ≤ s.left p + 1

/-- The members of a sub-communicator have entered it once more from the phase `a` on, and left it
from `b` on. -/
def Counted (members : List Proc) (g : Group) (left ph : Proc → Nat) (a b : Nat) : Prop :=
  ∀ x ∈ members, 1 < members.length →
    g.entered (members.idxOf x) = left x + (if a ≤ ph x then 1 else 0) ∧
    g.left (members.idxOf x) = left x + if b ≤ ph x then 1 else 0

/-- `ph` is how far each leader has come in its current barrier: it has passed `leader_signal` from 1
on, entered and left the barrier of its node from 2 and 3 on, that of the roots from 4 and 5 on, and
the broadcast from 6 and 7 on. -/
structure Core (s : CommState) (ph : Proc → Nat) : Prop where
  order : ∀ p ∈ ranks, ∀ q ∈ ranks, s.left p ≤ s.entered q
  node : ∀ n, FlatBarrier.Inv (leaders place ranks n).length (s.node n)
  bcast : ∀ n, ByteBcast.Inv (leaders place ranks n).length (s.bcast n)
  roots : FlatBarrier.Inv (roots place ranks).length s.roots
  nodeCount : ∀ n, Counted (leaders place ranks n) (s.node n) s.left ph 2 3
  rootCount : Counted (Hierarchy.roots place ranks) s.roots s.left ph 4 5
  bcastCount : ∀ n, Counted (leaders place ranks n) (s.bcast n) s.left ph 6 7
  inside : ∀ n, ∀ l ∈ leaders place ranks n, 1 ≤ ph l → s.entered l = s.left l + 1
  team : ∀ n, ∀ l ∈ leaders place ranks n, 1 < (colocated place ranks (place.pid l)).length →
    Team place ranks s l
  ready : ∀ n, ∀ l ∈ leaders place ranks n, 1 < (colocated place ranks (place.pid l)).length →
    1 ≤ ph l → (s.vars (place.pid l)).coprocletCounter = (teammates place ranks l).length

variable {place ranks} {s : CommState} {ph : Proc → Nat}

theorem Team.full (h : Team place ranks s l)
    (hfull : (s.vars (place.pid l)).coprocletCounter = (teammates place ranks l).length) {p : Proc}
    (hp : p ∈ teammates place ranks l) : s.entered p = s.left l + 1 := by
  have hcount := h.counter
  rw [hfull] at hcount
  have hall := List.countP_eq_length.mp hcount.symm p hp
  simpa using hall

section
variable (h : Core place ranks s ph)
include h

theorem Core.root_known
    (hl : w ∈ leaders place ranks (nodeOf place w)) (hph : 7 ≤ ph w) :
    ∃ r ∈ Hierarchy.roots place ranks,
      s.left w < s.left r ∨ (s.left w ≤ s.left r ∧ 5 ≤ ph r) := by
  obtain ⟨hw, -⟩ := mem_of_mem_leaders place hl
  obtain ⟨r, hr, hnode, hhead⟩ := exists_root place hw
  refine ⟨r, hr, ?_⟩
  have hrl : r ∈ leaders place ranks (nodeOf place w) := List.mem_of_mem_head? hhead
  by_cases hlen : 1 < (leaders place ranks (nodeOf place w)).length
  · have hleft := (h.bcastCount _ w hl hlen).2
    rw [if_pos hph] at hleft
    have hdone := (h.bcast (nodeOf place w)).done _ (List.idxOf_lt_length_of_mem hl)
    have hent := (h.bcastCount _ r hrl hlen).1
    rw [(idxOf_eq_zero hrl).mpr hhead] at hent
    by_cases hr6 : 6 ≤ ph r
    · rw [if_pos hr6] at hent
      exact .inr ⟨by omega, by omega⟩
    · rw [if_neg hr6] at hent
      exact .inl (by omega)
  · -- the only leader of its node is the root
    have hone : (leaders place ranks (nodeOf place w)).length = 1 := by
      have := List.length_pos_of_mem hl
      omega
    obtain ⟨x, hx⟩ := List.length_eq_one_iff.mp hone
    rw [hx, List.mem_singleton] at hl hrl
    rw [hl, hrl]
    rw [hl] at hph
    exact .inr ⟨Nat.le_refl _, by omega⟩

theorem Core.leader_known {r q : Proc}
    (hr : r ∈ Hierarchy.roots place ranks) (hph : 5 ≤ ph r) (hq : q ∈ ranks) :
    ∃ l ∈ leaders place ranks (nodeOf place q), place.pid l = place.pid q ∧
      (s.left r < s.entered q ∨ (s.left r ≤ s.left l ∧ 1 ≤ ph l)) := by
  obtain ⟨l, hl, hpid⟩ := exists_leader place hq
  obtain ⟨t, ht, htnode, hthead⟩ := exists_root place hq
  have htl : t ∈ leaders place ranks (nodeOf place q) := List.mem_of_mem_head? hthead
  obtain ⟨hlr, -⟩ := mem_of_mem_leaders place hl
  have htr := mem_ranks_of_roots place ht
  refine ⟨l, hl, hpid, ?_⟩
  -- the root of the node of `q`
  have hroot : s.left r < s.left t ∨ (s.left r ≤ s.left t ∧ 3 ≤ ph t) := by
    by_cases hlen : 1 < (Hierarchy.roots place ranks).length
    · have hleft := (h.rootCount r hr hlen).2
      rw [if_pos hph] at hleft
      have hle := h.roots.left_le (List.idxOf_lt_length_of_mem hr) (List.idxOf_lt_length_of_mem ht)
      have hent := (h.rootCount t ht hlen).1
      by_cases ht4 : 4 ≤ ph t
      · rw [if_pos ht4] at hent
        exact .inr ⟨by omega, by omega⟩
      · rw [if_neg ht4] at hent
        exact .inl (by omega)
    · have hone : (Hierarchy.roots place ranks).length = 1 := by
        have := List.length_pos_of_mem hr
        omega
      obtain ⟨x, hx⟩ := List.length_eq_one_iff.mp hone
      rw [hx, List.mem_singleton] at hr ht
      rw [hr, ht]
      rw [hr] at hph
      exact .inr ⟨Nat.le_refl _, by omega⟩
  rcases hroot with hlt | ⟨hle, ht3⟩
  · exact .inl (Nat.lt_of_lt_of_le hlt (h.order t htr q hq))
  · by_cases hlen : 1 < (leaders place ranks (nodeOf place q)).length
    · have hleft := (h.nodeCount _ t htl hlen).2
      rw [if_pos ht3] at hleft
      have hle' := (h.node (nodeOf place q)).left_le (List.idxOf_lt_length_of_mem htl)
        (List.idxOf_lt_length_of_mem hl)
      have hent := (h.nodeCount _ l hl hlen).1
      by_cases hl2 : 2 ≤ ph l
      · rw [if_pos hl2] at hent
        exact .inr ⟨by omega, by omega⟩
      · rw [if_neg hl2] at hent
        have horder := h.order l hlr q hq
        exact .inl (by omega)
    · have hone : (leaders place ranks (nodeOf place q)).length = 1 := by
        have := List.length_pos_of_mem hl
        omega
      obtain ⟨x, hx⟩ := List.length_eq_one_iff.mp hone
      rw [hx, List.mem_singleton] at hl htl
      rw [hl]
      rw [htl] at hle ht3
      exact .inr ⟨hle, by omega⟩

theorem Core.all_entered
    (hl : w ∈ leaders place ranks (nodeOf place w)) (hph : 7 ≤ ph w) {q : Proc} (hq : q ∈ ranks) :
    s.left w < s.entered q := by
  obtain ⟨r, hr, hlt | ⟨hle, hph5⟩⟩ := h.root_known hl hph
  · exact Nat.lt_of_lt_of_le hlt (h.order r (mem_ranks_of_roots place hr) q hq)
  · obtain ⟨l, hlq, hpid, hlt | ⟨hle', hph1⟩⟩ := h.leader_known hr hph5 hq
    · omega
    · obtain ⟨hlr, -⟩ := mem_of_mem_leaders place hlq
      by_cases hql : q = l
      · have hin := h.inside _ l hlq hph1
        rw [hql]
        omega
      · have hmate : q ∈ teammates place ranks l := (mem_teammates place ranks).mpr ⟨hq, hpid.symm, hql⟩
        have hlen := colocated_length place ranks hmate hlr
        have hfull := (h.team _ l hlq hlen).full (h.ready _ l hlq hlen hph1) hmate
        omega

end

variable {members : List Proc} {g : Group} {left : Proc → Nat} {a b : Nat}

theorem Counted.phase
    {k : Nat} (h : Counted members g left ph a b)
    (hw : w ∈ members → 1 < members.length → (a ≤ k ↔ a ≤ ph w) ∧ (b ≤ k ↔ b ≤ ph w)) :
    Counted members g left (update ph w k) a b := by
  intro x hx hlen
  obtain ⟨hent, hleft⟩ := h x hx hlen
  by_cases hxw : x = w
  · subst hxw
    obtain ⟨ha, hb⟩ := hw hx hlen
    rw [update_self]
    simp only [ha, hb]
    exact ⟨hent, hleft⟩
  · rw [update_of_ne hxw]
    exact ⟨hent, hleft⟩

theorem Counted.move {g' : Group}
    {k : Nat} (h : Counted members g left ph a b) (hw : w ∈ members)
    (hmoved : Moved (members.idxOf w) g g')
    (hothers : ∀ i, i ≠ members.idxOf w → g'.entered i = g.entered i)
    (hent : g'.entered (members.idxOf w) = left w + if a ≤ k then 1 else 0)
    (hleft : g'.left (members.idxOf w) = left w + if b ≤ k then 1 else 0) :
    Counted members g' left (update ph w k) a b := by
  intro x hx hlen
  by_cases hxw : x = w
  · subst hxw
    rw [update_self]
    exact ⟨hent, hleft⟩
  · have hidx : members.idxOf x ≠ members.idxOf w := fun heq => hxw ((List.idxOf_inj hx).mp heq)
    rw [update_of_ne hxw, hothers _ hidx, hmoved.left _ hidx]
    exact h x hx hlen

theorem Counted.turn {g' : Group}
    (h : Counted members g left ph a (a + 1)) (hw : w ∈ members) (hlen : 1 < members.length)
    (hph : ph w ≤ a) (hmoved : Moved (members.idxOf w) g g')
    (hothers : ∀ i, i ≠ members.idxOf w → g'.entered i = g.entered i)
    (hent : g'.entered (members.idxOf w) = left w + 1) :
    (g'.mask (members.idxOf w) = none ∧
      Counted members g' left (update ph w (a + 1)) a (a + 1)) ∨
    (g'.mask (members.idxOf w) ≠ none ∧ Counted members g' left (update ph w a) a (a + 1)) := by
  obtain ⟨-, hleft⟩ := h w hw hlen
  rw [if_neg (by omega)] at hleft
  rcases hmoved.own with ⟨hnone, hown⟩ | ⟨hsome, hown⟩
  · refine .inl ⟨hnone, h.move hw hmoved hothers ?_ ?_⟩
    · rw [if_pos (Nat.le_succ a), hent]
    · rw [if_pos (Nat.le_refl _), hown, hleft]
  · refine .inr ⟨hsome, h.move hw hmoved hothers ?_ ?_⟩
    · rw [if_pos (Nat.le_refl a), hent]
    · rw [if_neg (by omega), hown, hleft]

theorem Counted.enter {g' : Group}
    (h : Counted members g left ph a (a + 1)) (hw : w ∈ members) (hlen : 1 < members.length)
    (hph : ph w < a) (hmoved : Moved (members.idxOf w) g g')
    (hentered : g'.entered = update g.entered (members.idxOf w)
      (g.entered (members.idxOf w) + 1)) :
    (g'.mask (members.idxOf w) = none ∧
      Counted members g' left (update ph w (a + 1)) a (a + 1)) ∨
    (g'.mask (members.idxOf w) ≠ none ∧ Counted members g' left (update ph w a) a (a + 1)) := by
  obtain ⟨hent, -⟩ := h w hw hlen
  rw [if_neg (by omega)] at hent
  refine h.turn hw hlen (Nat.le_of_lt hph) hmoved (fun i hi => ?_) ?_
  · rw [hentered, update_of_ne hi]
  · rw [hentered, update_self, hent]

theorem Counted.receive {g' : Group}
    (h : Counted members g left ph a (a + 1)) (hw : w ∈ members) (hlen : 1 < members.length)
    (hph : ph w = a) (hmoved : Moved (members.idxOf w) g g') (hentered : g'.entered = g.entered) :
    (g'.mask (members.idxOf w) = none ∧
      Counted members g' left (update ph w (a + 1)) a (a + 1)) ∨
    (g'.mask (members.idxOf w) ≠ none ∧ Counted members g' left (update ph w a) a (a + 1)) := by
  obtain ⟨hent, -⟩ := h w hw hlen
  rw [if_pos (by omega)] at hent
  refine h.turn hw hlen (Nat.le_of_eq hph) hmoved (fun i _ => by rw [hentered]) ?_
  rw [hentered, hent]

theorem mask_eq_none {r : Nat} (h : g.entered r = g.left r + waiting (g.mask r))
    (heq : g.entered r = g.left r) : g.mask r = none := by
  cases hmask : g.mask r with
  | none => rfl
  | some m =>
    rw [hmask, waiting_some] at h
    omega

theorem mask_ne_none {r : Nat} (h : g.entered r = g.left r + waiting (g.mask r))
    (hlt : g.left r < g.entered r) : g.mask r ≠ none := by
  intro hmask
  rw [hmask, waiting_none] at h
  omega

theorem Counted.outside
    (h : Counted members g left ph a (a + 1)) (hw : w ∈ members) (hlen : 1 < members.length)
    (hph : ph w < a) : g.entered (members.idxOf w) = g.left (members.idxOf w) := by
  obtain ⟨hent, hleft⟩ := h w hw hlen
  rw [if_neg (by omega)] at hent hleft
  omega

theorem Counted.within
    (h : Counted members g left ph a (a + 1)) (hw : w ∈ members) (hlen : 1 < members.length)
    (hph : ph w = a) : g.left (members.idxOf w) < g.entered (members.idxOf w) := by
  obtain ⟨hent, hleft⟩ := h w hw hlen
  rw [if_pos (by omega)] at hent
  rw [if_neg (by omega)] at hleft
  omega

theorem Counted.leave
    (h : Counted members g left ph a b) (ha : 0 < a) (hb : 0 < b) (haw : a ≤ ph w) (hbw : b ≤ ph w) :
    Counted members g (update left w (left w + 1)) (update ph w 0) a b := by
  intro x hx hlen
  have hcount := h x hx hlen
  by_cases hxw : x = w
  · subst hxw
    rw [if_pos haw, if_pos hbw] at hcount
    rw [update_self, update_self, if_neg (by omega), if_neg (by omega)]
    exact hcount
  · rw [update_of_ne hxw, update_of_ne hxw]
    exact hcount

theorem Counted.other
    (h : Counted members g left ph a b) (hw : w ∉ members) (k : Nat) :
    Counted members g (update left w k) ph a b := by
  intro x hx hlen
  have hxw : x ≠ w := by
    rintro rfl
    exact hw hx
  rw [update_of_ne hxw]
  exact h x hx hlen

theorem leader_unique {l' : Proc} {n n' : Nat} (hl : l ∈ leaders place ranks n)
    (hl' : l' ∈ leaders place ranks n') (hpid : place.pid l = place.pid l') : l = l' := by
  obtain ⟨-, hn⟩ := mem_of_mem_leaders place hl
  obtain ⟨-, hn'⟩ := mem_of_mem_leaders place hl'
  have hnode : n = n' := by rw [← hn, ← hn', nodeOf, nodeOf, hpid]
  subst hnode
  exact List.inj_on_of_nodup_map (firsts_keys_nodup place.pid _) hl hl' hpid

theorem Core.stage (h : Core place ranks s ph) (stage : Proc → Option Stage) :
    Core place ranks { s with stage := stage } ph := by
  refine ⟨h.order, h.node, h.bcast, h.roots, h.nodeCount, h.rootCount, h.bcastCount, h.inside, ?_,
    h.ready⟩
  intro n l hl hlen
  obtain ⟨h1, h2, h3, h4⟩ := h.team n l hl hlen
  exact ⟨h1, h2, h3, h4⟩

section Leader
variable {w : Proc}

variable {k : Nat}

section
variable (h : Core place ranks s ph)
include h

theorem Core.regroup (hk : 1 ≤ k → 1 ≤ ph w) {node bcast : Nat → Group} {roots : Group}
    (hnode : ∀ n, FlatBarrier.Inv (leaders place ranks n).length (node n))
    (hbcast : ∀ n, ByteBcast.Inv (leaders place ranks n).length (bcast n))
    (hroots : FlatBarrier.Inv (Hierarchy.roots place ranks).length roots)
    (hnodeCount : ∀ n, Counted (leaders place ranks n) (node n) s.left (update ph w k) 2 3)
    (hrootCount : Counted (Hierarchy.roots place ranks) roots s.left (update ph w k) 4 5)
    (hbcastCount : ∀ n, Counted (leaders place ranks n) (bcast n) s.left (update ph w k) 6 7) :
    Core place ranks { s with node := node, bcast := bcast, roots := roots } (update ph w k) := by
  have hpos : ∀ x, 1 ≤ update ph w k x → 1 ≤ ph x := by
    intro x hx
    by_cases hxw : x = w
    · rw [hxw, update_self] at hx
      rw [hxw]
      exact hk hx
    · rwa [update_of_ne hxw] at hx
  refine ⟨h.order, hnode, hbcast, hroots, hnodeCount, hrootCount, hbcastCount,
    fun n l hl hph => h.inside n l hl (hpos l hph), fun n l hl hlen => ?_,
    fun n l hl hlen hph => h.ready n l hl hlen (hpos l hph)⟩
  obtain ⟨h1, h2, h3, h4⟩ := h.team n l hl hlen
  exact ⟨h1, h2, h3, h4⟩

theorem Core.rephase (hk : 1 ≤ k → 1 ≤ ph w)
    (hnode : w ∈ leaders place ranks (nodeOf place w) → 1 < (leaders place ranks (nodeOf place w)).length →
      ((2 ≤ k ↔ 2 ≤ ph w) ∧ (3 ≤ k ↔ 3 ≤ ph w)) ∧ (6 ≤ k ↔ 6 ≤ ph w) ∧ (7 ≤ k ↔ 7 ≤ ph w))
    (hroots : w ∈ Hierarchy.roots place ranks → 1 < (Hierarchy.roots place ranks).length →
      (4 ≤ k ↔ 4 ≤ ph w) ∧ (5 ≤ k ↔ 5 ≤ ph w)) :
    Core place ranks s (update ph w k) := by
  have hown : ∀ n, w ∈ leaders place ranks n → n = nodeOf place w :=
    fun n hw => (mem_of_mem_leaders place hw).2.symm
  refine h.regroup hk h.node h.bcast h.roots ?_ (h.rootCount.phase hroots) ?_
  · intro n
    refine (h.nodeCount n).phase fun hw hlen => ?_
    obtain rfl := hown n hw
    exact (hnode hw hlen).1
  · intro n
    refine (h.bcastCount n).phase fun hw hlen => ?_
    obtain rfl := hown n hw
    exact (hnode hw hlen).2

theorem Core.moveNode (hk : 1 ≤ ph w ∧ ph w < 4 ∧ k < 4)
    {g : Group} (hinv : FlatBarrier.Inv (leaders place ranks (nodeOf place w)).length g)
    (hcount : Counted (leaders place ranks (nodeOf place w)) g s.left (update ph w k) 2 3) :
    Core place ranks (s.setNode (nodeOf place w) g) (update ph w k) := by
  refine h.regroup (fun _ => hk.1) ?_ h.bcast h.roots ?_ (h.rootCount.phase fun _ _ => by omega)
    fun n => (h.bcastCount n).phase fun _ _ => by omega
  · exact (Function.forall_update_iff s.node _).mpr ⟨hinv, fun n _ => h.node n⟩
  · refine (Function.forall_update_iff s.node fun n g => Counted (leaders place ranks n) g s.left _ 2 3).mpr
      ⟨hcount, fun n hn => ?_⟩
    exact (h.nodeCount n).phase fun hw _ => absurd (mem_of_mem_leaders place hw).2.symm hn

theorem Core.moveBcast (hk : 5 ≤ ph w ∧ 5 ≤ k)
    {g : Group} (hinv : ByteBcast.Inv (leaders place ranks (nodeOf place w)).length g)
    (hcount : Counted (leaders place ranks (nodeOf place w)) g s.left (update ph w k) 6 7) :
    Core place ranks (s.setBcast (nodeOf place w) g) (update ph w k) := by
  refine h.regroup (fun _ => by omega) h.node ?_ h.roots (fun n => (h.nodeCount n).phase fun _ _ => by omega)
    (h.rootCount.phase fun _ _ => by omega) ?_
  · exact (Function.forall_update_iff s.bcast _).mpr ⟨hinv, fun n _ => h.bcast n⟩
  · refine (Function.forall_update_iff s.bcast fun n g => Counted (leaders place ranks n) g s.left _ 6 7).mpr
      ⟨hcount, fun n hn => ?_⟩
    exact (h.bcastCount n).phase fun hw _ => absurd (mem_of_mem_leaders place hw).2.symm hn

theorem Core.moveRoots (hk : 3 ≤ ph w ∧ ph w < 6 ∧ 3 ≤ k ∧ k < 6)
    {g : Group} (hinv : FlatBarrier.Inv (Hierarchy.roots place ranks).length g)
    (hcount : Counted (Hierarchy.roots place ranks) g s.left (update ph w k) 4 5) :
    Core place ranks { s with roots := g } (update ph w k) :=
  h.regroup (fun _ => by omega) h.node h.bcast hinv (fun n => (h.nodeCount n).phase fun _ _ => by omega) hcount
    fun n => (h.bcastCount n).phase fun _ _ => by omega

theorem Core.pass (hph : ph w = 0) (hinside : s.entered w = s.left w + 1)
    (hfull : 1 < (colocated place ranks (place.pid w)).length →
      (s.vars (place.pid w)).coprocletCounter = (teammates place ranks w).length) :
    Core place ranks s (update ph w 1) := by
  refine ⟨h.order, h.node, h.bcast, h.roots, fun n => (h.nodeCount n).phase fun _ _ => by omega,
    h.rootCount.phase fun _ _ => by omega, fun n => (h.bcastCount n).phase fun _ _ => by omega, ?_,
    h.team, ?_⟩
  · intro n l hl' hpos
    by_cases hlw : l = w
    · rw [hlw]
      exact hinside
    · rw [update_of_ne hlw] at hpos
      exact h.inside n l hl' hpos
  · intro n l hl' hlen hpos
    by_cases hlw : l = w
    · rw [hlw] at hlen ⊢
      exact hfull hlen
    · rw [update_of_ne hlw] at hpos
      exact h.ready n l hl' hlen hpos

theorem Core.enterLeader (hl : w ∈ leaders place ranks (nodeOf place w))
    (hph : ph w = 0) : Core place ranks (countEntry s w) ph := by
  have hup : ∀ q, s.entered q ≤ (countEntry s w).entered q := by
    intro q
    dsimp only [countEntry]
    by_cases hq : q = w
    · rw [hq, update_self]
      exact Nat.le_succ _
    · rw [update_of_ne hq]
  have hother : ∀ q, q ≠ w → (countEntry s w).entered q = s.entered q :=
    fun q hq => update_of_ne hq ..
  refine ⟨fun p hp q hq => (h.order p hp q hq).trans (hup q), h.node, h.bcast, h.roots, h.nodeCount,
    h.rootCount, h.bcastCount, ?_, ?_, h.ready⟩
  · intro n l hl' hpos
    have hlw : l ≠ w := by
      rintro rfl
      omega
    rw [hother l hlw]
    exact h.inside n l hl' hpos
  · intro n l hl' hlen
    have hmates : ∀ p ∈ teammates place ranks l, p ≠ w := by
      intro p hp hpw
      obtain ⟨-, hpid, hne⟩ := (mem_teammates place ranks).mp hp
      rw [hpw] at hpid hne
      exact hne (leader_unique hl hl' hpid)
    obtain ⟨h1, h2, h3, h4⟩ := h.team n l hl' hlen
    refine ⟨h1, ?_, h3, ?_⟩
    · refine h2.trans (List.countP_congr fun p hp => ?_)
      rw [hother p (hmates p hp)]
      rfl
    · intro p hp
      rw [hother p (hmates p hp)]
      exact h4 p hp

theorem Core.release (hnodup : ranks.Nodup)
    (hl : w ∈ leaders place ranks (nodeOf place w)) (hph : ph w = 7) (s' : CommState)
    (hleft : s'.left = update s.left w (s.left w + 1)) (hentered : s'.entered = s.entered)
    (hgroups : s'.node = s.node ∧ s'.bcast = s.bcast ∧ s'.roots = s.roots)
    (hown : 1 < (colocated place ranks (place.pid w)).length →
      s'.vars (place.pid w) = ⟨1 - (s.vars (place.pid w)).coprocletSignal, 0, 0⟩)
    (hothers : ∀ pid, pid ≠ place.pid w → s'.vars pid = s.vars pid) :
    Core place ranks s' (update ph w 0) := by
  obtain ⟨hw, -⟩ := mem_of_mem_leaders place hl
  have hall : ∀ q ∈ ranks, s.left w < s.entered q := fun q hq => h.all_entered hl (by omega) hq
  have hpid : ∀ n, ∀ l ∈ leaders place ranks n, l ≠ w → place.pid l ≠ place.pid w :=
    fun n l hl' hne heq => hne (leader_unique hl' hl heq)
  refine ⟨?_, ?_, ?_, ?_, ?_, ?_, ?_, ?_, ?_, ?_⟩
  · intro p hp q hq
    rw [hleft, hentered]
    by_cases hpw : p = w
    · rw [hpw, update_self]
      exact hall q hq
    · rw [update_of_ne hpw]
      exact h.order p hp q hq
  · rw [hgroups.1]
    exact h.node
  · rw [hgroups.2.1]
    exact h.bcast
  · rw [hgroups.2.2]
    exact h.roots
  · rw [hgroups.1, hleft]
    exact fun n => (h.nodeCount n).leave (by decide) (by decide) (by omega) (by omega)
  · rw [hgroups.2.2, hleft]
    exact h.rootCount.leave (by decide) (by decide) (by omega) (by omega)
  · rw [hgroups.2.1, hleft]
    exact fun n => (h.bcastCount n).leave (by decide) (by decide) (by omega) (by omega)
  · intro n l hl' hpos
    have hlw : l ≠ w := by
      rintro rfl
      rw [update_self] at hpos
      omega
    rw [update_of_ne hlw] at hpos
    rw [hleft, hentered, update_of_ne hlw]
    exact h.inside n l hl' hpos
  · intro n l hl' hlen
    obtain ⟨hsig, hcnt, hlead, hmem⟩ := h.team n l hl' hlen
    by_cases hlw : l = w
    · subst hlw
      have hfull := h.ready n l hl' hlen (by omega)
      have hteam : ∀ p ∈ teammates place ranks l, s.entered p = s.left l + 1 :=
        fun p hp => (h.team n l hl' hlen).full hfull hp
      have hmates := teammates_length place ranks hnodup hw
      refine ⟨?_, ?_, ?_, ?_⟩
      · rw [hown hlen, hsig, hleft, update_self]
        dsimp only
        omega
      · rw [hown hlen, hleft, hentered, update_self]
        refine (List.countP_eq_zero.mpr fun p hp => ?_).symm
        have := hteam p hp
        simp only [decide_eq_true_eq]
        omega
      · rw [hown hlen]
        dsimp only
        rw [if_neg (by omega)]
      · intro p hp
        have hp' := hteam p hp
        obtain ⟨h1, h2, h3, h4⟩ := hmem p hp
        have hne := ((mem_teammates place ranks).mp hp).2.2
        rw [hleft, hentered, update_self, update_of_ne hne]
        omega
    · have hvars := hothers _ (hpid n l hl' hlw)
      have hmates : ∀ p ∈ teammates place ranks l, p ≠ w := by
        intro p hp hpw
        have hpl := ((mem_teammates place ranks).mp hp).2.1
        rw [hpw] at hpl
        exact hpid n l hl' hlw hpl.symm
      refine ⟨?_, ?_, ?_, ?_⟩
      · rw [hvars, hleft, update_of_ne hlw]
        exact hsig
      · rw [hvars, hleft, hentered, update_of_ne hlw]
        exact hcnt
      · rw [hvars]
        exact hlead
      · intro p hp
        rw [hleft, hentered, update_of_ne hlw, update_of_ne (hmates p hp)]
        exact hmem p hp
  · intro n l hl' hlen hpos
    have hlw : l ≠ w := by
      rintro rfl
      rw [update_self] at hpos
      omega
    rw [update_of_ne hlw] at hpos
    rw [hothers _ (hpid n l hl' hlw)]
    exact h.ready n l hl' hlen hpos

end

end Leader

section Mate
variable {l p : Proc} {n : Nat}

theorem mate_not_leader (hl : l ∈ leaders place ranks n) (hp : p ∈ teammates place ranks l)
    (m : Nat) : p ∉ leaders place ranks m := by
  intro hmem
  obtain ⟨-, hpid, hne⟩ := (mem_teammates place ranks).mp hp
  exact hne (leader_unique hmem hl hpid)

theorem mate_not_root (hl : l ∈ leaders place ranks n) (hp : p ∈ teammates place ranks l) :
    p ∉ Hierarchy.roots place ranks := by
  intro hmem
  exact mate_not_leader hl hp _ (List.mem_of_mem_head? ((mem_roots_iff place).mp hmem))

theorem Core.enterMate (h : Core place ranks s ph) (hnodup : ranks.Nodup)
    (hl : l ∈ leaders place ranks n) (hp : p ∈ teammates place ranks l)
    (hout : s.entered p = s.left p) (s' : CommState) (hleft : s'.left = s.left)
    (hentered : s'.entered = update s.entered p (s.entered p + 1))
    (hgroups : s'.node = s.node ∧ s'.bcast = s.bcast ∧ s'.roots = s.roots) (hown : s'.vars (place.pid l) =
      { s.vars (place.pid l) with
        coprocletCounter := (s.vars (place.pid l)).coprocletCounter + 1
        leaderSignal :=
          if (s.vars (place.pid l)).coprocletCounter + 1 = (teammates place ranks l).length then 1
          else (s.vars (place.pid l)).leaderSignal })
    (hothers : ∀ pid, pid ≠ place.pid l → s'.vars pid = s.vars pid) :
    Core place ranks s' ph ∧ (s.vars (place.pid l)).coprocletSignal = (s.entered p + 2) % 2 := by
  obtain ⟨hlr, -⟩ := mem_of_mem_leaders place hl
  have hlen := colocated_length place ranks hp hlr
  have hteam := h.team n l hl hlen
  obtain ⟨hsig, hcnt, hlead, hmem⟩ := hteam
  obtain ⟨h1, h2, h3, h4⟩ := hmem p hp
  have hround : s.entered p = s.left l := by omega
  have hup : ∀ q, s.entered q ≤ s'.entered q := by
    intro q
    rw [hentered]
    by_cases hq : q = p
    · rw [hq, update_self]
      exact Nat.le_succ _
    · rw [update_of_ne hq]
  have hother : ∀ q, q ≠ p → s'.entered q = s.entered q := by
    intro q hq
    rw [hentered, update_of_ne hq]
  have hnot : ∀ m, ∀ x ∈ leaders place ranks m, x ≠ p := by
    intro m x hx hxp
    exact mate_not_leader hl hp m (hxp ▸ hx)
  -- before the step the counter was not full, so that the leader was not past its signal
  have hpart : (s.vars (place.pid l)).coprocletCounter < (teammates place ranks l).length := by
    refine Nat.lt_of_le_of_ne (hcnt ▸ List.countP_le_length) fun hfull => ?_
    have := (h.team n l hl hlen).full hfull hp
    omega
  refine ⟨⟨?_, ?_, ?_, ?_, ?_, ?_, ?_, ?_, ?_, ?_⟩, by rw [hsig, hround]; omega⟩
  · intro x hx q hq
    rw [hleft]
    exact (h.order x hx q hq).trans (hup q)
  · rw [hgroups.1]
    exact h.node
  · rw [hgroups.2.1]
    exact h.bcast
  · rw [hgroups.2.2]
    exact h.roots
  · rw [hgroups.1, hleft]
    exact h.nodeCount
  · rw [hgroups.2.2, hleft]
    exact h.rootCount
  · rw [hgroups.2.1, hleft]
    exact h.bcastCount
  · intro m x hx hpos
    rw [hleft, hother x (hnot m x hx)]
    exact h.inside m x hx hpos
  · intro m x hx hxlen
    by_cases hxl : x = l
    · subst hxl
      refine ⟨?_, ?_, ?_, ?_⟩
      · rw [hown, hleft]
        exact hsig
      · rw [hown, hleft]
        dsimp only
        rw [hcnt]
        refine (countP_step (teammates_nodup place ranks hnodup) hp ?_ ?_ ?_).symm
        · simp only [decide_eq_false_iff_not]
          omega
        · rw [hentered, update_self, hround]
          simp
        · intro y hy hyp
          rw [hother y hyp]
      · rw [hown]
        dsimp only
        split
        · rfl
        · rw [hlead, if_neg (by omega)]
      · intro y hy
        rw [hleft]
        by_cases hyp : y = p
        · rw [hyp, hentered, update_self]
          omega
        · rw [hother y hyp]
          exact hmem y hy
    · have hpid : place.pid x ≠ place.pid l := fun heq => hxl (leader_unique hx hl heq)
      obtain ⟨g1, g2, g3, g4⟩ := h.team m x hx hxlen
      have hmates : ∀ y ∈ teammates place ranks x, y ≠ p := by
        intro y hy hyp
        rw [hyp] at hy
        have hpx := ((mem_teammates place ranks).mp hy).2.1
        have hpl := ((mem_teammates place ranks).mp hp).2.1
        exact hpid (hpx.symm.trans hpl)
      refine ⟨?_, ?_, ?_, ?_⟩
      · rw [hothers _ hpid, hleft]
        exact g1
      · rw [hothers _ hpid, hleft]
        refine g2.trans (List.countP_congr fun y hy => ?_)
        rw [hother y (hmates y hy)]
      · rw [hothers _ hpid]
        exact g3
      · intro y hy
        rw [hleft, hother y (hmates y hy)]
        exact g4 y hy
  · intro m x hx hxlen hpos
    by_cases hxl : x = l
    · subst hxl
      have := h.ready m x hx hxlen hpos
      omega
    · have hpid : place.pid x ≠ place.pid l := fun heq => hxl (leader_unique hx hl heq)
      rw [hothers _ hpid]
      exact h.ready m x hx hxlen hpos

theorem Core.leaveMate (h : Core place ranks s ph) (hl : l ∈ leaders place ranks n)
    (hp : p ∈ teammates place ranks l) (hin : s.entered p = s.left p + 1)
    (hflip : (s.vars (place.pid l)).coprocletSignal ≠ (s.entered p + 1) % 2) :
    Core place ranks (leave s p) ph := by
  obtain ⟨hlr, -⟩ := mem_of_mem_leaders place hl
  have hlen := colocated_length place ranks hp hlr
  obtain ⟨hsig, -, -, hmem⟩ := h.team n l hl hlen
  obtain ⟨h1, h2, h3, h4⟩ := hmem p hp
  have hround : s.entered p = s.left l := by
    rw [hsig] at hflip
    omega
  have hother : ∀ q, q ≠ p → (leave s p).left q = s.left q := fun q hq => update_of_ne hq ..
  have hnot : ∀ m, ∀ x ∈ leaders place ranks m, x ≠ p := by
    intro m x hx hxp
    exact mate_not_leader hl hp m (hxp ▸ hx)
  refine ⟨?_, h.node, h.bcast, h.roots, ?_, ?_, ?_, ?_, ?_, h.ready⟩
  · intro x hx q hq
    change (leave s p).left x ≤ s.entered q
    by_cases hxp : x = p
    · rw [hxp]
      change update s.left p _ p ≤ _
      rw [update_self, ← hin, hround]
      exact h.order l hlr q hq
    · rw [hother x hxp]
      exact h.order x hx q hq
  · exact fun m => (h.nodeCount m).other (fun hm => mate_not_leader hl hp m hm) _
  · exact h.rootCount.other (mate_not_root hl hp) _
  · exact fun m => (h.bcastCount m).other (fun hm => mate_not_leader hl hp m hm) _
  · intro m x hx hpos
    rw [hother x (hnot m x hx)]
    exact h.inside m x hx hpos
  · intro m x hx hxlen
    obtain ⟨g1, g2, g3, g4⟩ := h.team m x hx hxlen
    refine ⟨?_, ?_, g3, ?_⟩
    · rw [hother x (hnot m x hx)]
      exact g1
    · rw [hother x (hnot m x hx)]
      exact g2
    · intro y hy
      obtain ⟨i1, i2, i3, i4⟩ := g4 y hy
      rw [hother x (hnot m x hx)]
      by_cases hyp : y = p
      · subst hyp
        have hxl : x = l := by
          have hpx := ((mem_teammates place ranks).mp hy).2.1
          have hpl := ((mem_teammates place ranks).mp hp).2.1
          exact leader_unique hx hl (hpx.symm.trans hpl)
        change update s.left y _ y ≤ _ ∧ _ ∧ _ ∧ s.entered y ≤ update s.left y _ y + 1
        rw [update_self, hxl]
        exact ⟨by omega, h2, h3, by omega⟩
      · rw [hother y hyp]
        exact ⟨i1, i2, i3, i4⟩

end Mate

def Rest (place : Placement) (ranks : List Proc) (s : CommState) (ph : Proc → Nat) (w : Proc) : Prop :=
  match s.stage w with
  | none => s.entered w = s.left w ∧ (w ∈ leaders place ranks (nodeOf place w) → ph w = 0)
  | some (.signal sense) => w ∉ leaders place ranks (nodeOf place w) ∧ s.entered w = s.left w + 1 ∧
      sense = (s.entered w + 1) % 2
  | some .leader => w ∈ leaders place ranks (nodeOf place w) ∧ s.entered w = s.left w + 1 ∧ ph w = 0
  | some .node => w ∈ leaders place ranks (nodeOf place w) ∧
      1 < (leaders place ranks (nodeOf place w)).length ∧ ph w = 2
  | some .roots => w ∈ Hierarchy.roots place ranks ∧ 1 < (Hierarchy.roots place ranks).length ∧ ph w = 4
  | some .bcast => w ∈ leaders place ranks (nodeOf place w) ∧
      1 < (leaders place ranks (nodeOf place w)).length ∧ ph w = 6
  | some .flat => False

def Good (place : Placement) (ranks : List Proc) (s : CommState) : Prop :=
  ∃ ph, Core place ranks s ph ∧ ∀ w ∈ ranks, Rest place ranks s ph w

def subs (place : Placement) (ranks : List Proc) (w : Proc) : SubComms where
  nodeComm := subComm (leaders place ranks (nodeOf place w)) w
  nodeRootsComm := subComm (Hierarchy.roots place ranks) w
  osprocColocatedComm := subComm (colocated place ranks (place.pid w)) w

theorem Rest.congr {s' : CommState} {ph' : Proc → Nat} (h : Rest place ranks s ph w)
    (hstage : s'.stage w = s.stage w) (hent : s'.entered w = s.entered w)
    (hleft : s'.left w = s.left w) (hph : ph' w = ph w) : Rest place ranks s' ph' w := by
  unfold Rest
  rw [hstage, hent, hleft, hph]
  exact h

section Chain
variable {w : Proc}

def Others (place : Placement) (ranks : List Proc) (s : CommState) (ph : Proc → Nat) (w : Proc) : Prop :=
  ∀ q ∈ ranks, q ≠ w → Rest place ranks s ph q

theorem Others.congr {s' : CommState} (h : Others place ranks s ph w) (k : Nat)
    (hstage : ∀ q, q ≠ w → s'.stage q = s.stage q) (hent : ∀ q, q ≠ w → s'.entered q = s.entered q)
    (hleft : ∀ q, q ≠ w → s'.left q = s.left q) :
    Others place ranks s' (update ph w k) w := by
  intro q hq hqw
  exact (h q hq hqw).congr (hstage q hqw) (hent q hqw) (hleft q hqw) (update_of_ne hqw ..)

theorem Others.good (h : Others place ranks s ph w) (hcore : Core place ranks s ph)
    (hw : Rest place ranks s ph w) : Good place ranks s := by
  refine ⟨ph, hcore, fun q hq => ?_⟩
  by_cases hqw : q = w
  · rw [hqw]
    exact hw
  · exact h q hq hqw

section
variable (hnodup : ranks.Nodup) (h : Core place ranks s ph) (hothers : Others place ranks s ph w)
variable (hl : w ∈ leaders place ranks (nodeOf place w))
include hnodup h hothers hl

theorem release_good (hph : ph w = 7) : Good place ranks (release place (subs place ranks w) w s) := by
  obtain ⟨hw, -⟩ := mem_of_mem_leaders place hl
  have hin := h.inside _ w hl (by omega)
  have hrest : ∀ v : Nat → BarrierVars,
      Rest place ranks (leave { s with vars := v } w) (update ph w 0) w := by
    intro v
    unfold Rest leave CommState.setStage
    dsimp only
    rw [update_self]
    dsimp only
    rw [update_self, update_self]
    exact ⟨hin, fun _ => rfl⟩
  have hrests : ∀ v : Nat → BarrierVars,
      Others place ranks (leave { s with vars := v } w) (update ph w 0) w := fun v =>
    hothers.congr 0 (fun q hq => update_of_ne hq ..) (fun _ _ => rfl)
      (fun q hq => update_of_ne hq ..)
  unfold release subs subComm
  dsimp only
  by_cases hlen : 1 < (colocated place ranks (place.pid w)).length
  · rw [if_pos ⟨hlen, mem_colocated place hw⟩]
    dsimp only
    rw [if_pos ((mem_leaders_iff place hw).mp hl)]
    have hcore := h.release hnodup hl hph (leave (s.setVars (place.pid w)
      ⟨1 - (s.vars (place.pid w)).coprocletSignal, 0, 0⟩) w) rfl rfl ⟨rfl, rfl, rfl⟩
      (fun _ => update_self ..) (fun pid hpid => update_of_ne hpid ..)
    exact (hrests _).good hcore (hrest _)
  · rw [if_neg (fun hand => hlen hand.1)]
    have hcore := h.release hnodup hl hph (leave s w) rfl rfl ⟨rfl, rfl, rfl⟩
      (fun hlen' => absurd hlen' hlen) (fun _ _ => rfl)
    exact (hrests s.vars).good hcore (hrest s.vars)

theorem startBcast_good (hph : ph w = 5) : Good place ranks (startBcast place (subs place ranks w) w s) := by
  unfold startBcast
  by_cases hlen : 1 < (leaders place ranks (nodeOf place w)).length
  · have hsub : (subs place ranks w).nodeComm = some ⟨_, _⟩ := if_pos ⟨hlen, hl⟩
    rw [hsub]
    dsimp only
    have hidx := List.idxOf_lt_length_of_mem hl
    have hout := (h.bcastCount _).outside hl hlen (by omega)
    have hinv := ByteBcast.enter_inv (h.bcast _) hidx
      (mask_eq_none ((h.bcast _).entered _ hidx) hout)
    unfold advance
    rcases (h.bcastCount _).enter hl hlen (by omega) (ByteBcast.enter_moved ..)
      (ByteBcast.enter_entered ..) with ⟨hmask, hcount⟩ | ⟨hmask, hcount⟩
    · rw [if_pos hmask]
      refine release_good hnodup (h.moveBcast ⟨by omega, by omega⟩ hinv hcount) ?_ hl ?_
      · exact hothers.congr _ (fun _ _ => rfl) (fun _ _ => rfl) (fun _ _ => rfl)
      · exact update_self ..
    · rw [if_neg hmask]
      have hcore := h.moveBcast ⟨by omega, by omega⟩ hinv hcount
      refine @Others.good place ranks _ (update ph w 6) w ?_ ?_ ?_
      · exact hothers.congr 6 (fun q hq => update_of_ne hq ..) (fun _ _ => rfl) (fun _ _ => rfl)
      · exact hcore.stage _
      · unfold Rest CommState.setStage
        dsimp only
        rw [update_self]
        exact ⟨hl, hlen, update_self ..⟩
  · have hsub : (subs place ranks w).nodeComm = none := if_neg (fun hand => hlen hand.1)
    rw [hsub]
    refine release_good hnodup (h.rephase (k := 7) (by omega) (fun _ h' => absurd h' hlen) (by omega))
      ?_ hl (update_self ..)
    exact hothers.congr _ (fun _ _ => rfl) (fun _ _ => rfl) (fun _ _ => rfl)

theorem startRoots_good (hph : ph w = 3) : Good place ranks (startRoots place (subs place ranks w) w s) := by
  unfold startRoots
  by_cases hroot : 1 < (Hierarchy.roots place ranks).length ∧ w ∈ Hierarchy.roots place ranks
  · have hsub : (subs place ranks w).nodeRootsComm = some ⟨_, _⟩ := if_pos hroot
    rw [hsub]
    obtain ⟨hlen, hr⟩ := hroot
    dsimp only
    have hidx := List.idxOf_lt_length_of_mem hr
    have hout := h.rootCount.outside hr hlen (by omega)
    have hinv := FlatBarrier.enter_inv h.roots hidx (mask_eq_none (h.roots.entered_eq hidx) hout)
    unfold advance
    rcases h.rootCount.enter hr hlen (by omega) (FlatBarrier.enter_moved ..)
      (FlatBarrier.enter_entered ..) with ⟨hmask, hcount⟩ | ⟨hmask, hcount⟩
    · rw [if_pos hmask]
      refine startBcast_good hnodup
        (h.moveRoots ⟨by omega, by omega, by omega, by omega⟩ hinv hcount) ?_ hl ?_
      · exact hothers.congr _ (fun _ _ => rfl) (fun _ _ => rfl) (fun _ _ => rfl)
      · exact update_self ..
    · rw [if_neg hmask]
      have hcore := h.moveRoots ⟨by omega, by omega, by omega, by omega⟩ hinv hcount
      refine @Others.good place ranks _ (update ph w 4) w ?_ (hcore.stage _) ?_
      · exact hothers.congr 4 (fun q hq => update_of_ne hq ..) (fun _ _ => rfl) (fun _ _ => rfl)
      · unfold Rest CommState.setStage
        dsimp only
        rw [update_self]
        exact ⟨hr, hlen, update_self ..⟩
  · have hsub : (subs place ranks w).nodeRootsComm = none := if_neg hroot
    rw [hsub]
    refine startBcast_good hnodup (h.rephase (k := 5) (by omega) (by omega)
      (fun hr hlen => absurd ⟨hlen, hr⟩ hroot)) ?_ hl (update_self ..)
    exact hothers.congr _ (fun _ _ => rfl) (fun _ _ => rfl) (fun _ _ => rfl)

theorem startNode_good (hph : ph w = 1) : Good place ranks (startNode place (subs place ranks w) w s) := by
  unfold startNode
  by_cases hlen : 1 < (leaders place ranks (nodeOf place w)).length
  · have hsub : (subs place ranks w).nodeComm = some ⟨_, _⟩ := if_pos ⟨hlen, hl⟩
    rw [hsub]
    dsimp only
    have hidx := List.idxOf_lt_length_of_mem hl
    have hout := (h.nodeCount _).outside hl hlen (by omega)
    have hinv := FlatBarrier.enter_inv (h.node _) hidx
      (mask_eq_none ((h.node _).entered_eq hidx) hout)
    unfold advance
    rcases (h.nodeCount _).enter hl hlen (by omega) (FlatBarrier.enter_moved ..)
      (FlatBarrier.enter_entered ..) with ⟨hmask, hcount⟩ | ⟨hmask, hcount⟩
    · rw [if_pos hmask]
      refine startRoots_good hnodup (h.moveNode ⟨by omega, by omega, by omega⟩ hinv hcount) ?_ hl ?_
      · exact hothers.congr _ (fun _ _ => rfl) (fun _ _ => rfl) (fun _ _ => rfl)
      · exact update_self ..
    · rw [if_neg hmask]
      have hcore := h.moveNode ⟨by omega, by omega, by omega⟩ hinv hcount
      refine @Others.good place ranks _ (update ph w 2) w ?_ (hcore.stage _) ?_
      · exact hothers.congr 2 (fun q hq => update_of_ne hq ..) (fun _ _ => rfl) (fun _ _ => rfl)
      · unfold Rest CommState.setStage
        dsimp only
        rw [update_self]
        exact ⟨hl, hlen, update_self ..⟩
  · have hsub : (subs place ranks w).nodeComm = none := if_neg (fun hand => hlen hand.1)
    rw [hsub]
    refine startRoots_good hnodup (h.rephase (k := 3) (by omega) (fun _ h' => absurd h' hlen) (by omega))
      ?_ hl (update_self ..)
    exact hothers.congr _ (fun _ _ => rfl) (fun _ _ => rfl) (fun _ _ => rfl)

end

theorem startNode_mate (hw : w ∈ ranks) (hl : w ∉ leaders place ranks (nodeOf place w)) :
    startNode place (subs place ranks w) w s = leave s w := by
  have hr : w ∉ Hierarchy.roots place ranks :=
    fun hmem => hl (List.mem_of_mem_head? ((mem_roots_iff place).mp hmem))
  have hnode : (subs place ranks w).nodeComm = none := if_neg (fun hand => hl hand.2)
  have hroots : (subs place ranks w).nodeRootsComm = none := if_neg (fun hand => hr hand.2)
  unfold startNode startRoots startBcast release
  rw [hnode, hroots]
  dsimp only
  cases hco : (subs place ranks w).osprocColocatedComm with
  | none => rfl
  | some c =>
    have hrank : c.rank ≠ 0 := by
      have hc : (if 1 < (colocated place ranks (place.pid w)).length ∧
          w ∈ colocated place ranks (place.pid w) then
          some (⟨_, (colocated place ranks (place.pid w)).idxOf w⟩ : SubComm) else none) = some c := hco
      split at hc
      · rw [← Option.some.inj hc]
        exact fun hzero => hl ((mem_leaders_iff place hw).mpr hzero)
      · cases hc
    dsimp only
    rw [if_neg hrank]

theorem exists_leader_of_mate (hw : w ∈ ranks) (hl : w ∉ leaders place ranks (nodeOf place w)) :
    ∃ l ∈ leaders place ranks (nodeOf place w), place.pid w = place.pid l ∧
      w ∈ teammates place ranks l := by
  obtain ⟨l, hmem, hpid⟩ := exists_leader place hw
  have hne : w ≠ l := by
    rintro rfl
    exact hl hmem
  exact ⟨l, hmem, hpid.symm, (mem_teammates place ranks).mpr ⟨hw, hpid.symm, hne⟩⟩

theorem smpIntra_good (hnodup : ranks.Nodup) (h : Good place ranks s) (hw : w ∈ ranks)
    (hout : s.stage w = none) :
    Good place ranks (smpIntra place (subs place ranks w) w (countEntry s w)) := by
  obtain ⟨ph, hcore, hrest⟩ := h
  have hown := hrest w hw
  unfold Rest at hown
  rw [hout] at hown
  obtain ⟨heq, hph⟩ := hown
  have hentered : (countEntry s w).entered w = s.entered w + 1 := update_self ..
  have hothers : ∀ q, q ≠ w → (countEntry s w).entered q = s.entered q :=
    fun q hq => update_of_ne hq ..
  unfold smpIntra
  by_cases hl : w ∈ leaders place ranks (nodeOf place w)
  · have hph := hph hl
    have hcore' := hcore.enterLeader hl hph
    have hothers' : Others place ranks (countEntry s w) ph w := fun q hq hqw =>
      (hrest q hq).congr rfl (hothers q hqw) rfl rfl
    have hin : (countEntry s w).entered w = (countEntry s w).left w + 1 := by
      rw [hentered, heq]
      rfl
    -- the leader goes on with the barrier of its node
    have hgo : (1 < (colocated place ranks (place.pid w)).length →
        (s.vars (place.pid w)).coprocletCounter = (teammates place ranks w).length) →
        Good place ranks (startNode place (subs place ranks w) w (countEntry s w)) := by
      intro hfull
      refine startNode_good hnodup (hcore'.pass hph hin hfull) ?_ hl (update_self ..)
      exact hothers'.congr 1 (fun _ _ => rfl) (fun _ _ => rfl) (fun _ _ => rfl)
    by_cases hlen : 1 < (colocated place ranks (place.pid w)).length
    · have hsub : (subs place ranks w).osprocColocatedComm = some ⟨_, _⟩ :=
        if_pos ⟨hlen, mem_colocated place hw⟩
      rw [hsub]
      dsimp only
      rw [if_neg (not_not.mpr ((mem_leaders_iff place hw).mp hl))]
      have hteam := hcore.team _ w hl hlen
      split
      · refine @Others.good place ranks _ ph w ?_ (hcore'.stage _) ?_
        · intro q hq hqw
          exact (hothers' q hq hqw).congr (update_of_ne hqw ..) rfl rfl rfl
        · unfold Rest CommState.setStage
          dsimp only
          rw [update_self]
          exact ⟨hl, hin, hph⟩
      · rename_i hsignal
        refine hgo fun _ => ?_
        have hlead := hteam.leaderSignal
        by_contra hnot
        rw [if_neg hnot] at hlead
        exact hsignal hlead
    · have hsub : (subs place ranks w).osprocColocatedComm = none := if_neg (fun hand => hlen hand.1)
      rw [hsub]
      exact hgo fun hlen' => absurd hlen' hlen
  · obtain ⟨l, hlead, hpid, hmate⟩ := exists_leader_of_mate hw hl
    obtain ⟨hlr, -⟩ := mem_of_mem_leaders place hlead
    have hlen := colocated_length place ranks hmate hlr
    have hsub : (subs place ranks w).osprocColocatedComm = some ⟨_, _⟩ :=
      if_pos ⟨hpid ▸ hlen, mem_colocated place hw⟩
    have hrank : (colocated place ranks (place.pid w)).idxOf w ≠ 0 :=
      fun hzero => hl ((mem_leaders_iff place hw).mpr hzero)
    rw [hsub]
    dsimp only
    rw [if_pos hrank, hpid, ← teammates_length place ranks hnodup hlr]
    obtain ⟨hcore', hsense⟩ := hcore.enterMate hnodup hlead hmate heq
      ((countEntry s w).setVars (place.pid l)
        { s.vars (place.pid l) with
          coprocletCounter := (s.vars (place.pid l)).coprocletCounter + 1
          leaderSignal :=
            if (s.vars (place.pid l)).coprocletCounter + 1 = (teammates place ranks l).length then 1
            else (s.vars (place.pid l)).leaderSignal })
      rfl rfl ⟨rfl, rfl, rfl⟩ (update_self ..) (fun pid hne => update_of_ne hne ..)
    refine @Others.good place ranks _ ph w ?_ (hcore'.stage _) ?_
    · intro q hq hqw
      exact (hrest q hq).congr (update_of_ne hqw ..) (hothers q hqw) rfl rfl
    · unfold Rest CommState.setStage
      dsimp only
      rw [update_self]
      refine ⟨hl, ?_, ?_⟩
      · change (countEntry s w).entered w = s.left w + 1
        rw [hentered, heq]
      · change (s.vars (place.pid l)).coprocletSignal = ((countEntry s w).entered w + 1) % 2
        rw [hentered]
        exact hsense

theorem resumeSmp_good (hnodup : ranks.Nodup) (h : Good place ranks s) (hw : w ∈ ranks) {stage : Stage}
    (hstage : s.stage w = some stage) :
    Good place ranks (resumeSmp place (subs place ranks w) w stage s) := by
  have hgood := h
  obtain ⟨ph, hcore, hrest⟩ := h
  have hown := hrest w hw
  unfold Rest at hown
  rw [hstage] at hown
  have hothers : Others place ranks s ph w := fun q hq _ => hrest q hq
  unfold resumeSmp
  cases stage with
  | signal sense =>
    obtain ⟨hl, hin, rfl⟩ := hown
    obtain ⟨l, hlead, hpid, hmate⟩ := exists_leader_of_mate hw hl
    dsimp only
    split
    · exact hgood
    · rename_i hflip
      rw [startNode_mate hw hl]
      rw [hpid] at hflip
      refine Others.good (w := w) ?_ (hcore.leaveMate hlead hmate hin hflip) ?_
      · intro q hq hqw
        exact (hrest q hq).congr (update_of_ne hqw ..) rfl (update_of_ne hqw ..) rfl
      · unfold Rest leave CommState.setStage
        dsimp only
        rw [update_self]
        dsimp only
        rw [update_self]
        exact ⟨hin, fun hmem => absurd hmem hl⟩
  | leader =>
    obtain ⟨hl, hin, hph⟩ := hown
    dsimp only
    split
    · exact hgood
    · rename_i hsignal
      have hfull : 1 < (colocated place ranks (place.pid w)).length →
          (s.vars (place.pid w)).coprocletCounter = (teammates place ranks w).length := by
        intro hlen
        have hlead := (hcore.team _ w hl hlen).leaderSignal
        by_contra hnot
        rw [if_neg hnot] at hlead
        exact hsignal hlead
      refine startNode_good hnodup (hcore.pass hph hin hfull) ?_ hl (update_self ..)
      exact hothers.congr 1 (fun _ _ => rfl) (fun _ _ => rfl) (fun _ _ => rfl)
  | node =>
    obtain ⟨hl, hlen, hph⟩ := hown
    have hsub : (subs place ranks w).nodeComm = some ⟨_, _⟩ := if_pos ⟨hlen, hl⟩
    dsimp only
    rw [hsub]
    dsimp only
    have hidx := List.idxOf_lt_length_of_mem hl
    have hwithin := (hcore.nodeCount _).within hl hlen hph
    have hmask := mask_ne_none ((hcore.node _).entered_eq hidx) hwithin
    have hinv := FlatBarrier.receive_inv (hcore.node _) hidx
    unfold advance
    rcases (hcore.nodeCount _).receive hl hlen hph (FlatBarrier.receive_moved _ hmask)
      (FlatBarrier.receive_entered ..) with ⟨hnone, hcount⟩ | ⟨hsome, hcount⟩
    · rw [if_pos hnone]
      refine startRoots_good hnodup (hcore.moveNode ⟨by omega, by omega, by omega⟩ hinv hcount) ?_ hl ?_
      · exact hothers.congr _ (fun _ _ => rfl) (fun _ _ => rfl) (fun _ _ => rfl)
      · exact update_self ..
    · rw [if_neg hsome]
      refine Others.good (w := w) ?_ (hcore.moveNode ⟨by omega, by omega, by omega⟩ hinv hcount) ?_
      · exact hothers.congr _ (fun _ _ => rfl) (fun _ _ => rfl) (fun _ _ => rfl)
      · exact (hrest w hw).congr rfl rfl rfl ((update_self ..).trans hph.symm)
  | roots =>
    obtain ⟨hr, hlen, hph⟩ := hown
    have hl : w ∈ leaders place ranks (nodeOf place w) :=
      List.mem_of_mem_head? ((mem_roots_iff place).mp hr)
    have hsub : (subs place ranks w).nodeRootsComm = some ⟨_, _⟩ := if_pos ⟨hlen, hr⟩
    dsimp only
    rw [hsub]
    dsimp only
    have hidx := List.idxOf_lt_length_of_mem hr
    have hmask := mask_ne_none (hcore.roots.entered_eq hidx) (hcore.rootCount.within hr hlen hph)
    have hinv := FlatBarrier.receive_inv hcore.roots hidx
    unfold advance
    rcases hcore.rootCount.receive hr hlen hph (FlatBarrier.receive_moved _ hmask)
      (FlatBarrier.receive_entered ..) with ⟨hnone, hcount⟩ | ⟨hsome, hcount⟩
    · rw [if_pos hnone]
      refine startBcast_good hnodup
        (hcore.moveRoots ⟨by omega, by omega, by omega, by omega⟩ hinv hcount) ?_ hl ?_
      · exact hothers.congr _ (fun _ _ => rfl) (fun _ _ => rfl) (fun _ _ => rfl)
      · exact update_self ..
    · rw [if_neg hsome]
      refine Others.good (w := w) ?_
        (hcore.moveRoots ⟨by omega, by omega, by omega, by omega⟩ hinv hcount) ?_
      · exact hothers.congr _ (fun _ _ => rfl) (fun _ _ => rfl) (fun _ _ => rfl)
      · exact (hrest w hw).congr rfl rfl rfl ((update_self ..).trans hph.symm)
  | bcast =>
    obtain ⟨hl, hlen, hph⟩ := hown
    have hsub : (subs place ranks w).nodeComm = some ⟨_, _⟩ := if_pos ⟨hlen, hl⟩
    dsimp only
    rw [hsub]
    dsimp only
    have hidx := List.idxOf_lt_length_of_mem hl
    have hmask := mask_ne_none ((hcore.bcast _).entered _ hidx)
      ((hcore.bcastCount _).within hl hlen hph)
    have hinv := ByteBcast.receive_inv (hcore.bcast _) hidx
    unfold advance
    rcases (hcore.bcastCount _).receive hl hlen hph (ByteBcast.receive_moved hmask)
      (ByteBcast.receive_entered ..) with ⟨hnone, hcount⟩ | ⟨hsome, hcount⟩
    · rw [if_pos hnone]
      refine release_good hnodup (hcore.moveBcast ⟨by omega, by omega⟩ hinv hcount) ?_ hl ?_
      · exact hothers.congr _ (fun _ _ => rfl) (fun _ _ => rfl) (fun _ _ => rfl)
      · exact update_self ..
    · rw [if_neg hsome]
      refine Others.good (w := w) ?_ (hcore.moveBcast ⟨by omega, by omega⟩ hinv hcount) ?_
      · exact hothers.congr _ (fun _ _ => rfl) (fun _ _ => rfl) (fun _ _ => rfl)
      · exact (hrest w hw).congr rfl rfl rfl ((update_self ..).trans hph.symm)
  | flat => exact hown.elim

end Chain

structure FlatGood (ranks : List Proc) (s : CommState) : Prop where
  group : FlatBarrier.Inv ranks.length s.flat
  entered : ∀ w ∈ ranks, s.entered w = s.flat.entered (ranks.idxOf w)
  left : ∀ w ∈ ranks, s.left w = s.flat.left (ranks.idxOf w)
  stage : ∀ w ∈ ranks, s.stage w = none ↔ s.flat.mask (ranks.idxOf w) = none

section
variable (h : FlatGood ranks s) (hw : w ∈ ranks)
include h hw

omit hw in
theorem FlatGood.move {s' : CommState}
    (hflat : s'.flat = g) (hinv : FlatBarrier.Inv ranks.length g) (hmoved : Moved (ranks.idxOf w) s.flat g)
    (hentered : ∀ q ∈ ranks, q ≠ w → s'.entered q = s.entered q ∧
      g.entered (ranks.idxOf q) = s.flat.entered (ranks.idxOf q))
    (hleft : ∀ q, q ≠ w → s'.left q = s.left q) (hstage : ∀ q, q ≠ w → s'.stage q = s.stage q)
    (hown : s'.entered w = g.entered (ranks.idxOf w) ∧ s'.left w = g.left (ranks.idxOf w) ∧
      (s'.stage w = none ↔ g.mask (ranks.idxOf w) = none)) : FlatGood ranks s' := by
  have hidx : ∀ q ∈ ranks, q ≠ w → ranks.idxOf q ≠ ranks.idxOf w :=
    fun q hq hqw heq => hqw ((List.idxOf_inj hq).mp heq)
  subst hflat
  refine ⟨hinv, ?_, ?_, ?_⟩
  · intro q hq
    by_cases hqw : q = w
    · rw [hqw]
      exact hown.1
    · obtain ⟨h1, h2⟩ := hentered q hq hqw
      rw [h1, h2]
      exact h.entered q hq
  · intro q hq
    by_cases hqw : q = w
    · rw [hqw]
      exact hown.2.1
    · rw [hleft q hqw, hmoved.left _ (hidx q hq hqw)]
      exact h.left q hq
  · intro q hq
    by_cases hqw : q = w
    · rw [hqw]
      exact hown.2.2
    · rw [hstage q hqw, hmoved.mask _ (hidx q hq hqw)]
      exact h.stage q hq

theorem flatEnter_good (hout : s.stage w = none) :
    FlatGood ranks
      (advance (FlatBarrier.enter ranks.length (ranks.idxOf w) s.flat) (ranks.idxOf w)
        (leave { countEntry s w with
          flat := FlatBarrier.enter ranks.length (ranks.idxOf w) s.flat } w)
        (({ countEntry s w with
          flat := FlatBarrier.enter ranks.length (ranks.idxOf w) s.flat } : CommState).setStage w
          (some .flat))) := by
  have hidx := List.idxOf_lt_length_of_mem hw
  have hmoved := FlatBarrier.enter_moved ranks.length (ranks.idxOf w) s.flat
  have hent := FlatBarrier.enter_entered ranks.length (ranks.idxOf w) s.flat
  have hinv := FlatBarrier.enter_inv h.group hidx ((h.stage w hw).mp hout)
  have hentered : ∀ q ∈ ranks, q ≠ w → (countEntry s w).entered q = s.entered q ∧
      (FlatBarrier.enter ranks.length (ranks.idxOf w) s.flat).entered (ranks.idxOf q) =
        s.flat.entered (ranks.idxOf q) := by
    intro q hq hqw
    have hne : ranks.idxOf q ≠ ranks.idxOf w := fun heq => hqw ((List.idxOf_inj hq).mp heq)
    rw [hent, update_of_ne hne]
    exact ⟨update_of_ne hqw .., rfl⟩
  have hown : (countEntry s w).entered w =
      (FlatBarrier.enter ranks.length (ranks.idxOf w) s.flat).entered (ranks.idxOf w) := by
    rw [hent, update_self, ← h.entered w hw]
    exact update_self ..
  unfold advance
  rcases hmoved.own with ⟨hnone, hleft⟩ | ⟨hsome, hleft⟩
  · rw [if_pos hnone]
    refine h.move (g := FlatBarrier.enter ranks.length (ranks.idxOf w) s.flat) rfl hinv hmoved hentered (fun q hq => update_of_ne hq ..)
      (fun q hq => update_of_ne hq ..) ⟨hown, ?_, ?_⟩
    · rw [hleft, ← h.left w hw]
      exact update_self ..
    · exact ⟨fun _ => hnone, fun _ => update_self ..⟩
  · rw [if_neg hsome]
    refine h.move (g := FlatBarrier.enter ranks.length (ranks.idxOf w) s.flat) rfl hinv hmoved hentered (fun _ _ => rfl)
      (fun q hq => update_of_ne hq ..) ⟨hown, ?_, ?_⟩
    · rw [hleft, ← h.left w hw]
      rfl
    · refine ⟨fun hstage => ?_, fun hmask => absurd hmask hsome⟩
      change update s.stage w (some .flat) w = none at hstage
      rw [update_self] at hstage
      cases hstage

theorem flatReceive_good (hin : s.stage w ≠ none) :
    FlatGood ranks
      (advance (FlatBarrier.receive ranks.length (ranks.idxOf w) s.flat) (ranks.idxOf w)
        (leave { s with flat := FlatBarrier.receive ranks.length (ranks.idxOf w) s.flat } w)
        { s with flat := FlatBarrier.receive ranks.length (ranks.idxOf w) s.flat }) := by
  have hidx := List.idxOf_lt_length_of_mem hw
  have hmoved := FlatBarrier.receive_moved ranks.length (mt (h.stage w hw).mpr hin)
  have hent := FlatBarrier.receive_entered ranks.length (ranks.idxOf w) s.flat
  have hinv := FlatBarrier.receive_inv h.group hidx
  unfold advance
  rcases hmoved.own with ⟨hnone, hleft⟩ | ⟨hsome, hleft⟩
  · rw [if_pos hnone]
    refine h.move (g := FlatBarrier.receive ranks.length (ranks.idxOf w) s.flat) rfl hinv hmoved (fun q _ _ => ⟨rfl, by rw [hent]⟩)
      (fun q hq => update_of_ne hq ..) (fun q hq => update_of_ne hq ..) ⟨?_, ?_, ?_⟩
    · rw [hent]
      exact h.entered w hw
    · rw [hleft, ← h.left w hw]
      exact update_self ..
    · exact ⟨fun _ => hnone, fun _ => update_self ..⟩
  · rw [if_neg hsome]
    refine h.move (g := FlatBarrier.receive ranks.length (ranks.idxOf w) s.flat) rfl hinv hmoved (fun q _ _ => ⟨rfl, by rw [hent]⟩) (fun _ _ => rfl)
      (fun _ _ => rfl) ⟨?_, ?_, ?_⟩
    · rw [hent]
      exact h.entered w hw
    · rw [hleft]
      exact h.left w hw
    · exact ⟨fun hstage => absurd hstage hin, fun hmask => absurd hmask hsome⟩

end

def Aware (smp : Bool) (place : Placement) (ranks : List Proc) : Prop :=
  smp = true ∧ (Hierarchy.roots place ranks).length ≠ ranks.length

theorem nodeAware_eq {smp : Bool} (hnodup : ranks.Nodup) (hw : w ∈ ranks) :
    (Aware smp place ranks → nodeAware smp place ranks w = some (subs place ranks w)) ∧
      (¬ Aware smp place ranks → nodeAware smp place ranks w = none) := by
  unfold nodeAware Aware
  rw [commit_eq place hnodup hw]
  constructor
  · rintro ⟨hsmp, hlen⟩
    rw [if_pos hsmp, if_neg hlen]
    rfl
  · intro hnot
    by_cases hsmp : smp = true
    · rw [if_pos hsmp, if_pos (by_contra fun hlen => hnot ⟨hsmp, hlen⟩)]
    · rw [if_neg hsmp]

structure CommInv (smp : Bool) (place : Placement) (ranks : List Proc) (s : CommState) : Prop where
  alone : ranks.length = 1 → ∀ w ∈ ranks, s.stage w = none ∧ s.entered w = s.left w
  aware : ranks.length ≠ 1 → Aware smp place ranks → Good place ranks s
  flat : ranks.length ≠ 1 → ¬ Aware smp place ranks → FlatGood ranks s

theorem init_good (hnodup : ranks.Nodup) : Good place ranks {} := by
  refine ⟨fun _ => 0, ?_, fun _ _ => ⟨rfl, fun _ => rfl⟩⟩
  have hcounted : ∀ members a b, 0 < a → 0 < b →
      Counted members {} (fun _ => 0) (fun _ => 0) a b := by
    intro members a b ha hb x _ _
    rw [if_neg (Nat.not_le.mpr ha), if_neg (Nat.not_le.mpr hb)]
    exact ⟨rfl, rfl⟩
  refine ⟨fun _ _ _ _ => Nat.le_refl 0, fun _ => FlatBarrier.init_inv _, fun _ => ByteBcast.init_inv _,
    FlatBarrier.init_inv _, fun _ => hcounted _ _ _ (by decide) (by decide),
    hcounted _ _ _ (by decide) (by decide), fun _ => hcounted _ _ _ (by decide) (by decide),
    fun _ _ _ h => absurd h (by decide), ?_, fun _ _ _ _ h => absurd h (by decide)⟩
  intro n l hl hlen
  obtain ⟨hlr, -⟩ := mem_of_mem_leaders place hl
  refine ⟨rfl, ?_, ?_, fun _ _ => ⟨Nat.le_refl 0, Nat.le_refl 0, Nat.zero_le 1, Nat.zero_le 1⟩⟩
  · exact (List.countP_eq_zero.mpr fun _ _ => by simp).symm
  · have hpos : 0 < (teammates place ranks l).length := by
      rw [teammates_length place ranks hnodup hlr]
      omega
    rw [if_neg (Nat.ne_of_lt hpos)]

theorem init_inv (smp : Bool) (hnodup : ranks.Nodup) : CommInv smp place ranks {} where
  alone _ _ _ := ⟨rfl, rfl⟩
  aware _ _ := init_good hnodup
  flat _ _ := ⟨FlatBarrier.init_inv _, fun _ _ => rfl, fun _ _ => rfl,
    fun _ _ => ⟨fun _ => rfl, fun _ => rfl⟩⟩

theorem barrierIntra_inv {smp : Bool} (hnodup : ranks.Nodup) (h : CommInv smp place ranks s)
    (hw : w ∈ ranks) (hout : s.stage w = none) :
    CommInv smp place ranks (barrierIntra smp place ranks w s) := by
  unfold barrierIntra
  dsimp only
  by_cases hone : ranks.length = 1
  · rw [if_pos hone]
    refine ⟨fun _ q hq => ?_, fun hne => absurd hone hne, fun hne => absurd hone hne⟩
    obtain ⟨x, hx⟩ := List.length_eq_one_iff.mp hone
    have hqw : q = w := by
      rw [hx, List.mem_singleton] at hq hw
      exact hq.trans hw.symm
    subst hqw
    refine ⟨update_self .., ?_⟩
    change update s.entered q (s.entered q + 1) q = update s.left q (s.left q + 1) q
    rw [update_self, update_self, (h.alone hone q hq).2]
  · rw [if_neg hone]
    refine ⟨fun heq => absurd heq hone, fun _ haware => ?_, fun _ hnot => ?_⟩
    · rw [(nodeAware_eq hnodup hw).1 haware]
      exact smpIntra_good hnodup (h.aware hone haware) hw hout
    · rw [(nodeAware_eq hnodup hw).2 hnot]
      exact flatEnter_good (h.flat hone hnot) hw hout

theorem resume_inv {smp : Bool} (hnodup : ranks.Nodup) (h : CommInv smp place ranks s)
    (hw : w ∈ ranks) : CommInv smp place ranks (resume smp place ranks w s) := by
  unfold resume
  cases hstage : s.stage w with
  | none => exact h
  | some stage =>
    have hin : s.stage w ≠ none := by
      rw [hstage]
      exact Option.some_ne_none _
    refine ⟨fun hone => absurd (h.alone hone w hw).1 hin, fun hone haware => ?_, fun hone hnot => ?_⟩
    · rw [(nodeAware_eq hnodup hw).1 haware]
      exact resumeSmp_good hnodup (h.aware hone haware) hw hstage
    · rw [(nodeAware_eq hnodup hw).2 hnot]
      exact flatReceive_good (h.flat hone hnot) hw hin

end Members

def Alone (w : Proc) (s s' : CommState) : Prop := ∀ q, q ≠ w → s'.stage q = s.stage q

section Frame
variable (place : Placement) (sub : SubComms) (w : Proc) (s : CommState)

theorem setStage_alone (stage : Option Stage) : Alone w s (s.setStage w stage) :=
  fun _ hq => update_of_ne hq ..

theorem leave_alone : Alone w s (leave s w) := fun _ hq => update_of_ne hq ..

theorem release_alone : Alone w s (release place sub w s) := by
  unfold release
  split
  · exact leave_alone w s
  · dsimp only
    split
    · exact leave_alone w (s.setVars ..)
    · exact leave_alone w s

theorem advance_alone {g : Group} {rank : Nat} {next waits : CommState} (hnext : Alone w s next)
    (hwaits : Alone w s waits) : Alone w s (advance g rank next waits) := by
  unfold advance
  split
  · exact hnext
  · exact hwaits

theorem startBcast_alone : Alone w s (startBcast place sub w s) := by
  unfold startBcast
  split
  · exact release_alone place sub w s
  · exact advance_alone w s (release_alone place sub w (s.setBcast ..))
      (setStage_alone w (s.setBcast ..) _)

theorem startRoots_alone : Alone w s (startRoots place sub w s) := by
  unfold startRoots
  split
  · exact startBcast_alone place sub w s
  · rename_i c _
    exact advance_alone w s
      (startBcast_alone place sub w { s with roots := FlatBarrier.enter c.members.length c.rank s.roots })
      (setStage_alone w { s with roots := FlatBarrier.enter c.members.length c.rank s.roots } _)

theorem startNode_alone : Alone w s (startNode place sub w s) := by
  unfold startNode
  split
  · exact startRoots_alone place sub w s
  · exact advance_alone w s (startRoots_alone place sub w (s.setNode ..))
      (setStage_alone w (s.setNode ..) _)

theorem smpIntra_alone : Alone w s (smpIntra place sub w s) := by
  unfold smpIntra
  split
  · exact startNode_alone place sub w s
  · dsimp only
    split
    · exact setStage_alone w (s.setVars ..) _
    · split
      · exact setStage_alone w s _
      · exact startNode_alone place sub w s

theorem resumeSmp_alone (stage : Stage) : Alone w s (resumeSmp place sub w stage s) := by
  unfold resumeSmp
  cases stage with
  | signal sense =>
    dsimp only
    split
    · exact fun _ _ => rfl
    · exact startNode_alone place sub w s
  | leader =>
    dsimp only
    split
    · exact fun _ _ => rfl
    · exact startNode_alone place sub w s
  | node =>
    dsimp only
    split
    · exact fun _ _ => rfl
    · exact advance_alone w s (startRoots_alone place sub w (s.setNode ..)) (fun _ _ => rfl)
  | roots =>
    dsimp only
    split
    · exact fun _ _ => rfl
    · rename_i c _
      exact advance_alone w s (startBcast_alone place sub w
        { s with roots := FlatBarrier.receive c.members.length c.rank s.roots }) (fun _ _ => rfl)
  | bcast =>
    dsimp only
    split
    · exact fun _ _ => rfl
    · exact advance_alone w s (release_alone place sub w (s.setBcast ..)) (fun _ _ => rfl)
  | flat => exact fun _ _ => rfl

theorem barrierIntra_alone (smp : Bool) (ranks : List Proc) :
    Alone w s (barrierIntra smp place ranks w s) := by
  unfold barrierIntra
  dsimp only
  split
  · exact leave_alone w (countEntry s w)
  · split
    · exact smpIntra_alone place _ w (countEntry s w)
    · exact advance_alone w s (fun q hq => update_of_ne hq ..)
        (fun q hq => update_of_ne hq ..)

theorem resume_alone (smp : Bool) (ranks : List Proc) : Alone w s (resume smp place ranks w s) := by
  unfold resume
  split
  · exact fun _ _ => rfl
  · exact resumeSmp_alone place _ w s _
  · exact advance_alone w s (fun q hq => update_of_ne hq ..) (fun _ _ => rfl)

end Frame

structure WorldInv (smp : Bool) (place : Placement) (comm : Nat → Comm) (world : World) : Prop where
  comms : ∀ c, CommInv smp place (comm c).ranks (world.comms c)
  inside : ∀ w c, (world.comms c).stage w ≠ none → world.inside w = some c
  member : ∀ w c, world.inside w = some c → w ∈ (comm c).ranks

section World
variable {smp : Bool} {place : Placement} {comm : Nat → Comm} {world : World}

theorem WorldInv.update (h : WorldInv smp place comm world) {w : Proc} {c : Nat} {s : CommState}
    (hw : w ∈ (comm c).ranks) (hs : CommInv smp place (comm c).ranks s) (halone : Alone w (world.comms c) s)
    (honly : ∀ d, d ≠ c → (world.comms d).stage w = none) :
    WorldInv smp place comm (world.update w c s) := by
  have hstage : ∀ q d, ((world.update w c s).comms d).stage q ≠ none →
      (q = w ∧ d = c ∧ s.stage w ≠ none) ∨ (q ≠ w ∧ (world.comms d).stage q ≠ none) := by
    intro q d hq
    unfold World.update at hq
    dsimp only at hq
    by_cases hd : d = c
    · rw [hd, update_self] at hq
      by_cases hqw : q = w
      · rw [hqw] at hq
        exact .inl ⟨hqw, hd, hq⟩
      · rw [halone q hqw] at hq
        exact .inr ⟨hqw, hd ▸ hq⟩
    · rw [update_of_ne hd] at hq
      refine .inr ⟨?_, hq⟩
      rintro rfl
      exact hq (honly d hd)
  refine ⟨?_, ?_, ?_⟩
  · intro d
    unfold World.update
    dsimp only
    by_cases hd : d = c
    · rw [hd, update_self]
      exact hs
    · rw [update_of_ne hd]
      exact h.comms d
  · intro q d hq
    unfold World.update
    dsimp only
    rcases hstage q d hq with ⟨rfl, rfl, hne⟩ | ⟨hqw, hne⟩
    · rw [update_self, if_neg hne]
    · rw [update_of_ne hqw]
      exact h.inside q d hne
  · intro q d hq
    unfold World.update at hq
    dsimp only at hq
    by_cases hqw : q = w
    · subst hqw
      rw [update_self] at hq
      split at hq
      · cases hq
      · cases hq
        exact hw
    · rw [update_of_ne hqw] at hq
      exact h.member q d hq

theorem step_inv (h : WorldInv smp place comm world) (e : Event) :
    WorldInv smp place comm (step smp place comm world e) := by
  cases e with
  | barrier w c =>
    simp only [step]
    split
    · rename_i hok
      have hout : ∀ d, (world.comms d).stage w = none := by
        intro d
        by_contra hne
        rw [h.inside w d hne] at hok
        cases hok.1
      exact h.update hok.2 (barrierIntra_inv (comm c).nodup (h.comms c) hok.2 (hout c))
        (barrierIntra_alone place w _ smp _) (fun d _ => hout d)
    · exact h
  | run w =>
    simp only [step]
    cases hin : world.inside w with
    | none =>
      dsimp only
      exact h
    | some c =>
      dsimp only
      have hw := h.member w c hin
      refine h.update hw (resume_inv (comm c).nodup (h.comms c) hw) (resume_alone place w _ smp _) ?_
      intro d hd
      by_contra hne
      rw [h.inside w d hne] at hin
      exact hd (Option.some.inj hin)

theorem run_inv (es : List Event) : WorldInv smp place comm (run smp place comm es) := by
  have hstep : ∀ es : List Event, ∀ world, WorldInv smp place comm world →
      WorldInv smp place comm (es.foldl (step smp place comm) world) := by
    intro es
    induction es with
    | nil => exact fun _ h => h
    | cons e es ih => exact fun world h => ih _ (step_inv h e)
  refine hstep es {} ⟨fun c => init_inv smp (comm c).nodup, ?_, ?_⟩
  · exact fun _ _ h => absurd rfl h
  · exact fun _ _ h => nomatch h

end World

/-- What the barriers of a communicator promise.  The round that a leader takes part in, or takes part
in next, is `s.left l + 1`. -/
structure Safe (smp : Bool) (place : Placement) (ranks : List Proc) (s : CommState) : Prop where
  /- Nobody leaves a barrier before everybody has entered it. -/
  order : ∀ p ∈ ranks, ∀ q ∈ ranks, s.left p ≤ s.entered q
  counter : ∀ l ∈ ranks, ∀ sub c, nodeAware smp place ranks l = some sub →
    sub.osprocColocatedComm = some c → c.rank = 0 →
    (s.vars (place.pid l)).coprocletCounter =
      (c.members.filter (· ≠ l)).countP (fun p => s.entered p = s.left l + 1) ∧
    (s.vars (place.pid l)).coprocletCounter ≤ (c.members.filter (· ≠ l)).length
  /- A process that waits for the signal has seen at most one flip. -/
  signal : ∀ l ∈ ranks, ∀ sub c, nodeAware smp place ranks l = some sub →
    sub.osprocColocatedComm = some c → c.rank = 0 →
    ∀ p ∈ c.members, ∀ sense, s.stage p = some (.signal sense) →
      (s.entered p = s.left l + 1 ∧ (s.vars (place.pid l)).coprocletSignal = sense) ∨
      (s.entered p = s.left l ∧ (s.vars (place.pid l)).coprocletSignal ≠ sense)

variable {place : Placement} {ranks : List Proc}

theorem leader_of_nodeAware {smp : Bool}
    (hnodup : ranks.Nodup) {l : Proc} (hl : l ∈ ranks) {sub : SubComms} {c : SubComm}
    (hsub : nodeAware smp place ranks l = some sub) (hc : sub.osprocColocatedComm = some c)
    (hrank : c.rank = 0) :
    Aware smp place ranks ∧ l ∈ leaders place ranks (nodeOf place l) ∧
      c.members = colocated place ranks (place.pid l) ∧
      1 < (colocated place ranks (place.pid l)).length := by
  have haware : Aware smp place ranks := by
    by_contra hnot
    rw [(nodeAware_eq hnodup hl).2 hnot] at hsub
    cases hsub
  rw [(nodeAware_eq hnodup hl).1 haware] at hsub
  cases hsub
  have hc' : (if 1 < (colocated place ranks (place.pid l)).length ∧
      l ∈ colocated place ranks (place.pid l) then
      some (⟨_, (colocated place ranks (place.pid l)).idxOf l⟩ : SubComm) else none) = some c := hc
  split at hc'
  · rename_i hlen
    cases hc'
    exact ⟨haware, (mem_leaders_iff place hl).mpr hrank, rfl, hlen.1⟩
  · cases hc'

theorem Good.safe {s : CommState} (smp : Bool)
    (hnodup : ranks.Nodup) (h : Good place ranks s) : Safe smp place ranks s := by
  obtain ⟨ph, hcore, hrest⟩ := h
  refine ⟨hcore.order, ?_, ?_⟩
  · intro l hl sub c hsub hc hrank
    obtain ⟨-, hlead, hmembers, hlen⟩ := leader_of_nodeAware hnodup hl hsub hc hrank
    have hteam := hcore.team _ l hlead hlen
    rw [hmembers]
    refine ⟨hteam.counter, ?_⟩
    rw [hteam.counter]
    exact List.countP_le_length
  · intro l hl sub c hsub hc hrank p hp sense hstage
    obtain ⟨-, hlead, hmembers, hlen⟩ := leader_of_nodeAware hnodup hl hsub hc hrank
    have hteam := hcore.team _ l hlead hlen
    rw [hmembers] at hp
    have hpr := List.mem_of_mem_filter hp
    have hown := hrest p hpr
    unfold Rest at hown
    rw [hstage] at hown
    obtain ⟨hpl, -, rfl⟩ := hown
    have hne : p ≠ l := by
      rintro rfl
      exact hpl hlead
    have hmate : p ∈ teammates place ranks l := List.mem_filter.mpr ⟨hp, by simpa using hne⟩
    obtain ⟨-, h2, h3, -⟩ := hteam.members p hmate
    rw [hteam.signal]
    omega

theorem CommInv.safe {smp : Bool} {s : CommState}
    (hnodup : ranks.Nodup) (h : CommInv smp place ranks s) : Safe smp place ranks s := by
  by_cases haware : ranks.length ≠ 1 ∧ Aware smp place ranks
  · exact (h.aware haware.1 haware.2).safe smp hnodup
  · have hnot : ¬ Aware smp place ranks := by
      intro hyes
      by_cases hone : ranks.length = 1
      · obtain ⟨x, rfl⟩ := List.length_eq_one_iff.mp hone
        exact hyes.2 (by simp [Hierarchy.roots, firsts, addFirst])
      · exact haware ⟨hone, hyes⟩
    refine ⟨?_, fun l hl sub c hsub hc hrank =>
        absurd (leader_of_nodeAware hnodup hl hsub hc hrank).1 hnot,
      fun l hl sub c hsub hc hrank => absurd (leader_of_nodeAware hnodup hl hsub hc hrank).1 hnot⟩
    intro p hp q hq
    by_cases hone : ranks.length = 1
    · obtain ⟨x, rfl⟩ := List.length_eq_one_iff.mp hone
      rw [List.mem_singleton] at hp hq
      rw [hp, hq, (h.alone hone x List.mem_cons_self).2]
    · have hflat := h.flat hone hnot
      rw [hflat.left p hp, hflat.entered q hq]
      exact hflat.group.left_le (List.idxOf_lt_length_of_mem hp) (List.idxOf_lt_length_of_mem hq)

/-- The barriers of any communicators, whatever the schedule. -/
theorem barriers_safe (smp : Bool) (place : Placement) (comm : Nat → Comm) (es : List Event) (c : Nat) :
    Safe smp place (comm c).ranks ((run smp place comm es).comms c) :=
  ((run_inv es).comms c).safe (comm c).nodup

end FgMpi.Coll.Barrier
