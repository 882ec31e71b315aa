import FgMpi.Comm.Creation

namespace FgMpi.Comm.Registry
open Machine.Slots ContextId.Mask
open Comm.NestedMaps Comm.SharedVars Comm.Communicator Comm.Ledger
open Comm.Effects

def Holds (c : Intracomm) : Prop := c.live = true ∧ 2 ≤ c.creation

instance (c : Intracomm) : Decidable (Holds c) := inferInstanceAs (Decidable (_ ∧ _))

def holding (i : CoRef) (c : Intracomm) : Nat := if Holds c ∧ c.co = i then 1 else 0

def holders (comms : List Intracomm) (i : CoRef) : Nat := tally (holding i) comms

structure Registered (place : Placement) (w : World) : Prop where
  balanced : Balanced w.heap
  within : ∀ (i : CoRef) co, w.heap.cos[i]? = some co → co.freed = false →
    if co.pinned then holders w.comms i < co.within else holders w.comms i = co.within
  table : ∀ pid key i, w.table pid key = some i → ∃ co, w.heap.cos[i]? = some co ∧ co.freed = false
  -- the keys of colocated communicators are never those of others
  own : ∀ pid key i co, w.table pid key = some i → w.heap.cos[i]? = some co →
    co.pinned = false → key.contextId % 16 = 0 ∧
      ∀ pid' key', w.table pid' key' = some i → pid' = pid ∧ key' = key
  comm : ∀ (ci : CommRef) c, w.comms[ci]? = some c → c.live = true →
    w.table (place.pid c.proc) ⟨c.contextId, c.leader⟩ = some c.co
  colocated : ∀ (ci : CommRef) c k, w.comms[ci]? = some c → c.colocated = some k →
    ∃ kco, w.heap.cos[k.co]? = some kco ∧ kco.freed = false ∧ kco.pinned = true
  predefined : ∀ (ci : CommRef) c, w.comms[ci]? = some c → c.creation < 2 →
    c.live = true ∧ ∃ co, w.heap.cos[c.co]? = some co ∧ co.pinned = true

section Reading
variable {place : Placement} {w : World}

section
variable (hr : Registered place w)
include hr

theorem Registered.sane : Sane w := ⟨hr.balanced, hr.table⟩

theorem Registered.co_of {ci : CommRef} {c : Intracomm} (hc : w.comms[ci]? = some c) (hlive : c.live = true) :
    ∃ co, w.heap.cos[c.co]? = some co ∧ co.freed = false :=
  hr.table _ _ _ (hr.comm ci c hc hlive)

theorem Registered.holders_fresh : holders w.comms w.heap.cos.length = 0 := by
  refine tally_eq_zero ?_
  intro ci c hc
  unfold holding
  rw [if_neg]
  rintro ⟨⟨hlive, _⟩, hco⟩
  obtain ⟨co, hi, _⟩ := hr.co_of hc hlive
  have hlt := lt_of_slot hi
  rw [hco] at hlt
  exact absurd hlt (Nat.lt_irrefl _)

theorem Registered.pinned_of_key {pid : Nat} {key : Key} {i : CoRef}
    {co : Co} (hkey : key.contextId % 16 ≠ 0) (ht : w.table pid key = some i)
    (hi : w.heap.cos[i]? = some co) : co.pinned = true := by
  cases hp : co.pinned with
  | true => rfl
  | false => exact absurd (hr.own pid key i co ht hi hp).1 hkey

end

end Reading

section Steps
variable {place : Placement} {w : World}

variable {w₁ : World} {i : CoRef}

theorem Registered.renested {n : Option Nested}
    (hr : Registered place w) (hn : Renested w w₁ i n) : Registered place w₁ := by
  obtain ⟨co, hi, hco, hcos⟩ := hn.cos
  have hback : ∀ (k : CoRef) co', w₁.heap.cos[k]? = some co' → ∃ co₀, w.heap.cos[k]? = some co₀ ∧
      co'.freed = co₀.freed ∧ co'.pinned = co₀.pinned ∧ co'.within = co₀.within := by
    intro k co' hk
    rw [hcos] at hk
    rcases (getElem?_update hi).mp hk with ⟨rfl, rfl⟩ | ⟨_, hk⟩
    · exact ⟨co, hi, rfl, rfl, rfl⟩
    · exact ⟨co', hk, rfl, rfl, rfl⟩
  have hforth : ∀ (k : CoRef) co₀, w.heap.cos[k]? = some co₀ → ∃ co', w₁.heap.cos[k]? = some co' ∧
      co'.freed = co₀.freed ∧ co'.pinned = co₀.pinned := by
    intro k co₀ hk
    rw [hcos]
    by_cases hki : k = i
    · subst hki
      rw [hi] at hk
      cases hk
      exact ⟨_, (getElem?_update hi).mpr (Or.inl ⟨rfl, rfl⟩), rfl, rfl⟩
    · exact ⟨co₀, (getElem?_update hi).mpr (Or.inr ⟨hki, hk⟩), rfl, rfl⟩
  refine ⟨hn.balanced, ?_, (hn.sane hr.sane).table, ?_, ?_, ?_, ?_⟩
  · intro k co' hk hfreed
    obtain ⟨co₀, hk₀, hf, hp, hw⟩ := hback k co' hk
    rw [hn.frame.comms, hp, hw]
    exact hr.within k co₀ hk₀ (hf ▸ hfreed)
  · intro pid key k co' ht hk hpin
    obtain ⟨co₀, hk₀, _, hp, _⟩ := hback k co' hk
    rw [hn.table] at ht ⊢
    exact hr.own pid key k co₀ ht hk₀ (hp ▸ hpin)
  · intro ci c hc hlive
    rw [hn.frame.comms] at hc
    rw [hn.table]
    exact hr.comm ci c hc hlive
  · intro ci c k hc hk
    rw [hn.frame.comms] at hc
    obtain ⟨kco, hkco, hkf, hkp⟩ := hr.colocated ci c k hc hk
    obtain ⟨kco', hkco', hf, hp⟩ := hforth k.co kco hkco
    exact ⟨kco', hkco', hf.trans hkf, hp.trans hkp⟩
  · intro ci c hc hcre
    rw [hn.frame.comms] at hc
    obtain ⟨hlive, co₀, hco₀, hpin⟩ := hr.predefined ci c hc hcre
    obtain ⟨co', hco', _, hp⟩ := hforth c.co co₀ hco₀
    exact ⟨hlive, co', hco', hp.trans hpin⟩

variable {target : Option GroupRef} {nested₀ : Option Nested} {fresh : List Proc → Prop}

theorem Registered.own_entered {pid : Nat} {key : Key} {pinned : Bool} (hr : Registered place w)
    (he : Entered pid key target pinned nested₀ fresh w w₁ i)
    (hkey : pinned = false → key.contextId % 16 = 0) {pid' : Nat} {key' : Key} {k : CoRef} {co : Co}
    (ht : w₁.table pid' key' = some k) (hk : w₁.heap.cos[k]? = some co)
    (hpin : co.pinned = false) :
    key'.contextId % 16 = 0 ∧
      ∀ pid'' key'', w₁.table pid'' key'' = some k → pid'' = pid' ∧ key'' = key' := by
  rcases he.found with ⟨co₀, htable, hi, hco₀, hi'⟩ | ⟨htable, hlast, m, x, a, hi', _⟩
  · -- the table is as it was
    have hsame : w₁.table = w.table := by
      rw [he.table, ← htable, Function.update_eq_self, Function.update_eq_self]
    rw [hsame] at ht ⊢
    obtain ⟨co', hk', _⟩ := hr.table pid' key' k ht
    rw [he.old hk'] at hk
    cases hk
    exact hr.own pid' key' k co' ht hk' hpin
  · have hnone : ∀ pid'' key'', w.table pid'' key'' ≠ some i := by
      intro pid'' key'' hold
      obtain ⟨co', hold', _⟩ := hr.table pid'' key'' i hold
      have hlt := lt_of_slot hold'
      rw [hlast] at hlt
      exact absurd hlt (Nat.lt_irrefl _)
    rw [he.table, table_update] at ht
    split at ht
    · rename_i hpk
      cases ht
      obtain ⟨rfl, rfl⟩ := hpk
      rw [hi'] at hk
      cases hk
      refine ⟨hkey hpin, ?_⟩
      intro pid'' key'' ht''
      rw [he.table, table_update] at ht''
      split at ht''
      · assumption
      · exact absurd ht'' (hnone pid'' key'')
    · have hki : k ≠ i := fun h => hnone pid' key' (h ▸ ht)
      obtain ⟨co', hk', _⟩ := hr.table pid' key' k ht
      rw [he.old hk'] at hk
      cases hk
      obtain ⟨h16, huniq⟩ := hr.own pid' key' k co' ht hk' hpin
      refine ⟨h16, ?_⟩
      intro pid'' key'' ht''
      rw [he.table, table_update] at ht''
      split at ht''
      · cases ht''
        exact absurd rfl hki
      · exact huniq pid'' key'' ht''

theorem Registered.comm_entered {pid : Nat} {key : Key} {pinned : Bool}
    (he : Entered pid key target pinned nested₀ fresh w w₁ i) {pid' : Nat} {key' : Key} {k : CoRef}
    (ht : w.table pid' key' = some k) : w₁.table pid' key' = some k := by
  rw [he.table, table_update]
  split
  · rename_i hpk
    obtain ⟨rfl, rfl⟩ := hpk
    rcases he.heap with ⟨htable, _⟩ | ⟨htable, _⟩
    · rw [← htable, ht]
    · rw [htable] at ht
      cases ht
  · exact ht

variable {c : Intracomm}

theorem holding_new (hlive : c.live = true) (hcre : 2 ≤ c.creation) (k : CoRef) :
    holding k c = if k = c.co then 1 else 0 := by
  unfold holding Holds
  simp only [hlive, hcre, and_self, true_and, eq_comm]

theorem Registered.joins (hr : Registered place w)
    (he : Entered (place.pid c.proc) ⟨c.contextId, c.leader⟩ target false nested₀ fresh w w₁ c.co)
    (hlive : c.live = true) (hcre : 2 ≤ c.creation) (hcolo : c.colocated = none)
    (hid : c.contextId % 16 = 0) : Registered place (w₁.addComm c) := by
  have hcomms : (w₁.addComm c).comms = w.comms ++ [c] := by
    rw [← he.frame.comms]
    rfl
  refine ⟨he.balanced, ?_, (he.sane hr.sane).table, ?_, ?_, ?_, ?_⟩
  · intro k co hk hfreed
    have hcount : holders (w₁.addComm c).comms k =
        holders w.comms k + if k = c.co then 1 else 0 := by
      rw [hcomms, holders, tally_concat, holding_new hlive hcre]
      rfl
    rw [hcount]
    by_cases hki : k = c.co
    · subst hki
      change w₁.heap.cos[c.co]? = some co at hk
      rcases he.found with ⟨co₀, _, hi, hco₀, hi'⟩ | ⟨_, hlast, m, x, a, hi', _⟩
      · rw [hi'] at hk
        cases hk
        have hw := hr.within c.co co₀ hi hco₀
        simp only [if_true]
        split <;> simp_all
      · rw [hi'] at hk
        cases hk
        have hzero := hr.holders_fresh
        rw [← hlast] at hzero
        simp [hzero]
    · simpa [hki] using hr.within k co (he.other hk hki) hfreed
  · intro pid key k co ht hk hpin
    exact hr.own_entered he (fun _ => hid) ht hk hpin
  · intro ci c' hc' hlive'
    rw [hcomms] at hc'
    rcases getElem?_concat.mp hc' with hc' | ⟨_, rfl⟩
    · exact Registered.comm_entered he (hr.comm ci c' hc' hlive')
    · change w₁.table _ _ = _
      rw [he.table, table_update, if_pos ⟨rfl, rfl⟩]
  · intro ci c' k hc' hk
    rw [hcomms] at hc'
    rcases getElem?_concat.mp hc' with hc' | ⟨_, rfl⟩
    · obtain ⟨kco, hkco, hkf, hkp⟩ := hr.colocated ci c' k hc' hk
      exact ⟨_, he.old hkco, hkf, hkp⟩
    · rw [hcolo] at hk
      cases hk
  · intro ci c' hc' hcre'
    rw [hcomms] at hc'
    rcases getElem?_concat.mp hc' with hc' | ⟨_, rfl⟩
    · obtain ⟨hlive', co, hco, hpin⟩ := hr.predefined ci c' hc' hcre'
      exact ⟨hlive', _, he.old hco, hpin⟩
    · omega

variable {ci : CommRef}

section
variable (hr : Registered place w)
include hr

theorem Registered.colocates
    (he : Entered (place.pid c.proc) ⟨c.contextId + colocatedOffset, c.leader⟩ none true none fresh
      w w₁ i) (hc : w.comms[ci]? = some c) (hid : c.contextId % 16 = 0) (rank : Option Nat)
    (size : Nat) : Registered place (w₁.setColocated ci c ⟨i, rank, size⟩) := by
  have hkey : (c.contextId + colocatedOffset) % 16 ≠ 0 := by
    unfold colocatedOffset
    omega
  have hcomms : (w₁.setColocated ci c ⟨i, rank, size⟩).comms =
      w.comms.set ci { c with colocated := some ⟨i, rank, size⟩ } := by
    rw [← he.frame.comms]
    rfl
  have hcount : ∀ k, holders (w₁.setColocated ci c ⟨i, rank, size⟩).comms k =
      holders w.comms k := by
    intro k
    rw [hcomms]
    exact tally_set_same (holding k) hc rfl
  -- the object that was found or made is a pinned one
  have hpinned : ∃ kco, w₁.heap.cos[i]? = some kco ∧ kco.freed = false ∧ kco.pinned = true := by
    rcases he.found with ⟨co₀, ht, hi, hco₀, hi'⟩ | ⟨_, _, m, x, a, hi', _⟩
    · have hp := hr.pinned_of_key hkey ht hi
      exact ⟨_, hi', hco₀, hp⟩
    · exact ⟨_, hi', rfl, rfl⟩
  refine ⟨he.balanced, ?_, (he.sane hr.sane).table, ?_, ?_, ?_, ?_⟩
  · intro k co hk hfreed
    rw [hcount k]
    by_cases hki : k = i
    · subst hki
      change w₁.heap.cos[k]? = some co at hk
      rcases he.found with ⟨co₀, ht, hi, hco₀, hi'⟩ | ⟨_, hlast, m, x, a, hi', _⟩
      · rw [hi'] at hk
        cases hk
        have hw := hr.within k co₀ hi hco₀
        have hp := hr.pinned_of_key hkey ht hi
        simp only [hp, if_true] at hw ⊢
        omega
      · rw [hi'] at hk
        cases hk
        have hzero := hr.holders_fresh
        rw [← hlast] at hzero
        simp [hzero]
    · exact hr.within k co (he.other hk hki) hfreed
  · intro pid key k co ht hk hpin
    exact hr.own_entered he (fun h => by cases h) ht hk hpin
  · intro ci' c' hc' hlive'
    rw [hcomms] at hc'
    rcases (getElem?_update hc).mp hc' with ⟨rfl, rfl⟩ | ⟨_, hc'⟩
    · exact Registered.comm_entered he (hr.comm _ c hc hlive')
    · exact Registered.comm_entered he (hr.comm ci' c' hc' hlive')
  · intro ci' c' k hc' hk
    rw [hcomms] at hc'
    rcases (getElem?_update hc).mp hc' with ⟨rfl, rfl⟩ | ⟨_, hc'⟩
    · cases hk
      exact hpinned
    · obtain ⟨kco, hkco, hkf, hkp⟩ := hr.colocated ci' c' k hc' hk
      exact ⟨_, he.old hkco, hkf, hkp⟩
  · intro ci' c' hc' hcre'
    rw [hcomms] at hc'
    obtain ⟨c₀, hc₀, hlive₀, hco₀, hcre₀⟩ : ∃ c₀, w.comms[ci']? = some c₀ ∧ c'.live = c₀.live ∧
        c'.co = c₀.co ∧ c'.creation = c₀.creation := by
      rcases (getElem?_update hc).mp hc' with ⟨rfl, rfl⟩ | ⟨_, hc'⟩
      · exact ⟨c, hc, rfl, rfl, rfl⟩
      · exact ⟨c', hc', rfl, rfl, rfl⟩
    obtain ⟨hlive', co, hco, hpin⟩ := hr.predefined ci' c₀ hc₀ (hcre₀ ▸ hcre')
    rw [hlive₀, hco₀]
    exact ⟨hlive', _, he.old hco, hpin⟩

theorem Registered.finished {w' : World} {nested : Nested} {n : Option Nested}
    (hc : w.comms[ci]? = some c) (hid : c.contextId % 16 = 0)
    (hfin : Finished (place.pid c.proc) ci c nested n fresh w w') : Registered place w' := by
  obtain ⟨w₁, hn, ⟨_, rfl⟩ | ⟨_, w₂, i, rank, he, rfl⟩⟩ := hfin
  · exact hr.renested hn
  · refine (hr.renested hn).colocates he ?_ hid rank _
    rw [hn.frame.comms]
    exact hc

theorem Registered.regroup {h' : Heap} (hb : Balanced h')
    (hcos : h'.cos = w.heap.cos) : Registered place { w with heap := h' } := by
  refine ⟨hb, ?_, ?_, ?_, hr.comm, ?_, ?_⟩
  · change ∀ (i : CoRef) co, h'.cos[i]? = some co → _
    rw [hcos]
    exact hr.within
  · change ∀ pid key i, w.table pid key = some i → ∃ co, h'.cos[i]? = some co ∧ _
    rw [hcos]
    exact hr.table
  · change ∀ pid key i co, w.table pid key = some i → h'.cos[i]? = some co → _
    rw [hcos]
    exact hr.own
  · change ∀ (ci : CommRef) c k, w.comms[ci]? = some c → c.colocated = some k →
      ∃ kco, h'.cos[k.co]? = some kco ∧ _
    rw [hcos]
    exact hr.colocated
  · change ∀ (ci : CommRef) c, w.comms[ci]? = some c → c.creation < 2 →
      _ ∧ ∃ co, h'.cos[c.co]? = some co ∧ _
    rw [hcos]
    exact hr.predefined

theorem Registered.localGroup (hc : w.comms[ci]? = some c) (g : Option GroupRef) :
    Registered place { w with comms := w.comms.set ci { c with localGroup := g } } := by
  refine ⟨hr.balanced, ?_, hr.table, hr.own, ?_, ?_, ?_⟩
  · intro k co hk hfreed
    have hcount : holders (w.comms.set ci { c with localGroup := g }) k = holders w.comms k :=
      tally_set_same (holding k) hc rfl
    change if co.pinned then holders (w.comms.set ci _) k < _ else holders (w.comms.set ci _) k = _
    rw [hcount]
    exact hr.within k co hk hfreed
  · intro ci' c' hc' hlive'
    rcases (getElem?_update hc).mp hc' with ⟨rfl, rfl⟩ | ⟨_, hc'⟩
    · exact hr.comm _ c hc hlive'
    · exact hr.comm ci' c' hc' hlive'
  · intro ci' c' k hc' hk
    rcases (getElem?_update hc).mp hc' with ⟨rfl, rfl⟩ | ⟨_, hc'⟩
    · exact hr.colocated _ c k hc hk
    · exact hr.colocated ci' c' k hc' hk
  · intro ci' c' hc' hcre'
    rcases (getElem?_update hc).mp hc' with ⟨rfl, rfl⟩ | ⟨_, hc'⟩
    · exact hr.predefined _ c hc hcre'
    · exact hr.predefined ci' c' hc' hcre'

end

theorem Registered.holder_pos (hc : w.comms[ci]? = some c) (hold : Holds c) : 0 < holders w.comms c.co := by
  have hle := le_tally (holding c.co) hc
  simp only [holding, hold, and_self, if_true] at hle
  exact hle

theorem holding_dead (i : CoRef) (c : Intracomm) : holding i { c with live := false } = 0 := by
  simp [holding, Holds]

theorem Registered.last_holder (hr : Registered place w) {ci' : CommRef} {c' : Intracomm}
    {co : Co} (hc : w.comms[ci]? = some c) (hold : Holds c) (hi : w.heap.cos[c.co]? = some co)
    (hco : co.freed = false) (hone : co.within = 1) (hc' : w.comms[ci']? = some c')
    (hlive' : c'.live = true) (hne : ci' ≠ ci) : co.pinned = false ∧ c'.co ≠ c.co := by
  have hpos := Registered.holder_pos hc hold
  have hw := hr.within c.co co hi hco
  have hpin : co.pinned = false := by
    cases hp : co.pinned with
    | false => rfl
    | true =>
      simp only [hp, if_true] at hw
      omega
  refine ⟨hpin, ?_⟩
  intro heq
  by_cases hcre : 2 ≤ c'.creation
  · -- two holders are too many
    have hset := tally_set (holding c.co) { c with live := false } hc
    have hle := le_tally (holding c.co)
      (show (w.comms.set ci { c with live := false })[ci']? = some c' by
        exact (getElem?_update hc).mpr (Or.inr ⟨hne, hc'⟩))
    have h₁ : holding c.co c' = 1 := by simp [holding, Holds, hlive', hcre, heq]
    have h₂ : holding c.co c = 1 := by simp [holding, hold]
    rw [holding_dead] at hset
    simp only [hpin, Bool.false_eq_true, if_false, holders] at hw
    omega
  · obtain ⟨_, co', hco', hp'⟩ := hr.predefined ci' c' hc' (by omega)
    rw [heq, hi] at hco'
    cases hco'
    rw [hpin] at hp'
    cases hp'

def Cleared (place : Placement) (c : Intracomm) (freed : Bool) (w : World)
    (table : Nat → Key → Option CoRef) : Prop :=
  table = if freed then
    Function.update w.table (place.pid c.proc)
      (Function.update (w.table (place.pid c.proc)) ⟨c.contextId, c.leader⟩ none)
    else w.table

theorem Registered.releases {co co' : Co} {h' : Heap} {freed : Bool}
    {table : Nat → Key → Option CoRef} (hr : Registered place w) (hc : w.comms[ci]? = some c)
    (hold : Holds c) (hi : w.heap.cos[c.co]? = some co) (hco : co.freed = false)
    (hb : Balanced h') (hcos : h'.cos = w.heap.cos.set c.co co') (hpin : co'.pinned = co.pinned)
    (hfreed : co'.freed = freed) (hone : freed = true ↔ co.within = 1)
    (hrest : freed = false → co' = { co with within := co.within - 1 })
    (htable : Cleared place c freed w table) (masks : Proc → ContextMask) :
    Registered place { w with
      heap := h'
      table := table
      comms := w.comms.set ci { c with live := false }
      masks := masks } := by
  have hkeyc := hr.comm ci c hc hold.1
  have hpos := Registered.holder_pos hc hold
  have hw := hr.within c.co co hi hco
  have hpinned : co.pinned = true → freed = false := by
    intro hp
    cases hf : freed with
    | false => rfl
    | true =>
      have hwithin := hone.mp hf
      simp only [hp, if_true] at hw
      omega
  have hset := fun k => tally_set (holding k) { c with live := false } hc
  -- entries that are still there, and what they lead to
  have hentry : ∀ pid key k, table pid key = some k →
      w.table pid key = some k ∧ (freed = true → k ≠ c.co) := by
    intro pid key k ht
    rw [htable] at ht
    split at ht
    · rename_i hf
      rw [table_update] at ht
      split at ht
      · cases ht
      · rename_i hne
        refine ⟨ht, ?_⟩
        rintro _ rfl
        have hup : co.pinned = false := by
          cases hp : co.pinned with
          | false => rfl
          | true => rw [hpinned hp] at hf; cases hf
        exact hne ((hr.own _ _ _ co hkeyc hi hup).2 pid key ht)
    · rename_i hf
      exact ⟨ht, fun h => absurd h hf⟩
  have hnew : ∀ (k : CoRef) co₁, h'.cos[k]? = some co₁ →
      k = c.co ∧ co₁ = co' ∨ k ≠ c.co ∧ w.heap.cos[k]? = some co₁ := by
    intro k co₁ hk
    rw [hcos] at hk
    exact (getElem?_update hi).mp hk
  have hkeep : ∀ (k : CoRef) co₀, w.heap.cos[k]? = some co₀ → ∃ co₁, h'.cos[k]? = some co₁ ∧
      co₁.pinned = co₀.pinned ∧ (k ≠ c.co ∨ freed = false → co₁.freed = co₀.freed) := by
    intro k co₀ hk
    rw [hcos]
    by_cases hkc : k = c.co
    · subst hkc
      rw [hi] at hk
      cases hk
      refine ⟨co', (getElem?_update hi).mpr (Or.inl ⟨rfl, rfl⟩), hpin, ?_⟩
      rintro (h | h)
      · exact absurd rfl h
      · rw [hfreed, h, hco]
    · exact ⟨co₀, (getElem?_update hi).mpr (Or.inr ⟨hkc, hk⟩), rfl, fun _ => rfl⟩
  refine ⟨hb, ?_, ?_, ?_, ?_, ?_, ?_⟩
  · intro k co₁ hk hk'
    have hcount := hset k
    rw [holding_dead] at hcount
    change if co₁.pinned then holders (w.comms.set ci _) k < _ else holders (w.comms.set ci _) k = _
    rcases hnew k co₁ hk with ⟨rfl, rfl⟩ | ⟨hkc, hk⟩
    · have hf : freed = false := by rw [← hfreed, hk']
      have h₁ : holding c.co c = 1 := by simp [holding, hold]
      rw [hrest hf]
      rw [h₁] at hcount
      cases hp : co.pinned with
      | true =>
        simp only [hp, if_true, holders] at hw ⊢
        omega
      | false =>
        simp only [hp, Bool.false_eq_true, if_false, holders] at hw ⊢
        omega
    · have h₀ : holding k c = 0 := by simp [holding, Ne.symm hkc]
      have hwk := hr.within k co₁ hk hk'
      have heq : holders (w.comms.set ci { c with live := false }) k = holders w.comms k := by
        unfold holders
        omega
      rw [heq]
      exact hwk
  · intro pid key k ht
    obtain ⟨hold', hne⟩ := hentry pid key k ht
    obtain ⟨co₀, hk, hk'⟩ := hr.table pid key k hold'
    obtain ⟨co₁, hco₁, _, hf⟩ := hkeep k co₀ hk
    refine ⟨co₁, hco₁, ?_⟩
    rw [hf ?_, hk']
    cases hfr : freed with
    | true => exact Or.inl (hne hfr)
    | false => exact Or.inr rfl
  · intro pid key k co₁ ht hk hp
    obtain ⟨hold', _⟩ := hentry pid key k ht
    obtain ⟨co₀, hk₀, _⟩ := hr.table pid key k hold'
    obtain ⟨co₂, hco₂, hp₂, _⟩ := hkeep k co₀ hk₀
    change h'.cos[k]? = some co₁ at hk
    rw [hk] at hco₂
    cases hco₂
    obtain ⟨h16, huniq⟩ := hr.own pid key k co₀ hold' hk₀ (hp₂ ▸ hp)
    exact ⟨h16, fun pid' key' ht' => huniq pid' key' (hentry pid' key' k ht').1⟩
  · intro ci' c' hc' hlive'
    rcases (getElem?_update hc).mp hc' with ⟨rfl, rfl⟩ | ⟨hne, hc'⟩
    · cases hlive'
    · have hkey' := hr.comm ci' c' hc' hlive'
      change table _ _ = _
      rw [htable]
      split
      · rename_i hf
        obtain ⟨_, hneco⟩ := hr.last_holder hc hold hi hco (hone.mp hf) hc' hlive' hne
        rw [table_update, if_neg]
        · exact hkey'
        · rintro ⟨hpid, hkey⟩
          rw [hpid, hkey, hkeyc] at hkey'
          exact hneco (Option.some.inj hkey').symm
      · exact hkey'
  · intro ci' c' k hc' hk
    obtain ⟨c₀, hc₀, hk₀⟩ : ∃ c₀, w.comms[ci']? = some c₀ ∧ c₀.colocated = some k := by
      rcases (getElem?_update hc).mp hc' with ⟨rfl, rfl⟩ | ⟨_, hc'⟩
      · exact ⟨c, hc, hk⟩
      · exact ⟨c', hc', hk⟩
    obtain ⟨kco, hkco, hkf, hkp⟩ := hr.colocated ci' c₀ k hc₀ hk₀
    obtain ⟨co₁, hco₁, hp₁, hf₁⟩ := hkeep k.co kco hkco
    refine ⟨co₁, hco₁, ?_, hp₁.trans hkp⟩
    rw [hf₁ ?_, hkf]
    by_cases hkc : k.co = c.co
    · rw [hkc, hi] at hkco
      cases hkco
      exact Or.inr (hpinned hkp)
    · exact Or.inl hkc
  · intro ci' c' hc' hcre'
    rcases (getElem?_update hc).mp hc' with ⟨rfl, rfl⟩ | ⟨_, hc'⟩
    · exact absurd hold.2 (Nat.not_le.mpr hcre')
    · obtain ⟨hlive', co₀, hco₀, hp₀⟩ := hr.predefined ci' c' hc' hcre'
      obtain ⟨co₁, hco₁, hp₁, _⟩ := hkeep c'.co co₀ hco₀
      exact ⟨hlive', co₁, hco₁, hp₁.trans hp₀⟩

end Steps

section Start
variable (place : Placement)

theorem init_cell {x : CellRef} {cell : Cell} :
    (World.init place).heap.cells[x]? = some cell ↔ x < place.numOsprocs ∧ cell = ⟨1, false, x⟩ :=
  getElem?_table

theorem init_co {i : CoRef} {co : Co} : (World.init place).heap.cos[i]? = some co ↔
    i < place.numOsprocs ∧ co = { rtwMap := some i, across := i, pinned := true } :=
  getElem?_table

theorem init_map {m : MapRef} {a : RtwMap} : (World.init place).heap.maps[m]? = some a ↔
    m < place.numOsprocs ∧ a = ⟨List.range place.totprocs, 0⟩ :=
  getElem?_table

theorem init_guard {x : CellRef} {f : Bool} {m : MapRef} :
    guard (World.init place).heap x = some (f, m) ↔ x < place.numOsprocs ∧ f = false ∧ m = x := by
  constructor
  · intro h
    obtain ⟨cell, hcell, rfl, rfl⟩ := cell_of_guard h
    obtain ⟨hx, rfl⟩ := (init_cell place).mp hcell
    exact ⟨hx, rfl, rfl⟩
  · rintro ⟨hx, rfl, rfl⟩
    exact guard_of_cell ((init_cell place).mpr ⟨hx, rfl⟩)

theorem init_balanced : Balanced (World.init place).heap where
  count x cell hx := by
    obtain ⟨hlt, rfl⟩ := (init_cell place).mp hx
    have hcos := tally_table (coShare x)
      (fun i => ({ rtwMap := some i, across := i, pinned := true } : Co))
      (n := place.numOsprocs) (x := x) (fun i _ => by simp [coShare])
    simp only [hlt, if_true] at hcos
    change tally (coShare x) ((List.range place.numOsprocs).map _) + 0 = 1
    omega
  alive x f m hx := by
    obtain ⟨hlt, rfl, rfl⟩ := (init_guard place).mp hx
    exact ⟨_, (init_map place).mpr ⟨hlt, rfl⟩, fun _ => rfl⟩
  inj x y f f' m hx hy := by
    obtain ⟨_, _, rfl⟩ := (init_guard place).mp hx
    obtain ⟨_, _, rfl⟩ := (init_guard place).mp hy
    rfl
  once m a hm := by
    obtain ⟨_, rfl⟩ := (init_map place).mp hm
    exact Nat.zero_le 1
  co i co hi _ := by
    obtain ⟨hlt, rfl⟩ := (init_co place).mp hi
    exact ⟨Nat.one_pos, false, i, (init_guard place).mpr ⟨hlt, rfl, rfl⟩, rfl⟩
  group j g hj := by simp [World.init] at hj
  loose j g hj := by simp [World.init] at hj

theorem init_comm {ci : CommRef} {c : Intracomm} (hc : (World.init place).comms[ci]? = some c) :
    ∃ p, p < place.totprocs ∧ (c = worldComm place p ∨ c = selfComm place p) := by
  have hmem := List.mem_of_getElem? hc
  change c ∈ (List.range place.totprocs).map (worldComm place) ++
    (List.range place.totprocs).map (selfComm place) at hmem
  rw [List.mem_append, List.mem_map, List.mem_map] at hmem
  rcases hmem with ⟨p, hp, rfl⟩ | ⟨p, hp, rfl⟩
  · exact ⟨p, List.mem_range.mp hp, Or.inl rfl⟩
  · exact ⟨p, List.mem_range.mp hp, Or.inr rfl⟩

theorem init_registered : Registered place (World.init place) where
  balanced := init_balanced place
  within i co hi _ := by
    obtain ⟨hlt, rfl⟩ := (init_co place).mp hi
    have hnone : holders (World.init place).comms i = 0 := by
      refine tally_eq_zero ?_
      intro ci c hc
      obtain ⟨p, _, rfl | rfl⟩ := init_comm place hc
      · simp [holding, Holds, worldComm]
      · simp [holding, Holds, selfComm]
    simp [hnone]
  table pid key i ht := by
    simp only [World.init] at ht
    split at ht
    · rename_i h
      cases ht
      exact ⟨_, (init_co place).mpr ⟨h.1, rfl⟩, rfl⟩
    · cases ht
  own pid key i co _ hi hpin := by
    obtain ⟨_, rfl⟩ := (init_co place).mp hi
    cases hpin
  comm ci c hc _ := by
    obtain ⟨p, hp, rfl | rfl⟩ := init_comm place hc
    · simp [World.init, worldComm, worldContextId, place.pid_lt p hp]
    · simp [World.init, selfComm, selfContextId, place.pid_lt p hp]
  colocated ci c k hc hk := by
    obtain ⟨p, _, rfl | rfl⟩ := init_comm place hc
    · cases hk
    · cases hk
  predefined ci c hc _ := by
    obtain ⟨p, hp, rfl | rfl⟩ := init_comm place hc
    · exact ⟨rfl, _, (init_co place).mpr ⟨place.pid_lt p hp, rfl⟩, rfl⟩
    · exact ⟨rfl, _, (init_co place).mpr ⟨place.pid_lt p hp, rfl⟩, rfl⟩

end Start

end FgMpi.Comm.Registry
