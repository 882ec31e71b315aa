import Mathlib.Data.Nat.ModEq

/-! The loop of `MPIR_Barrier_intra` (`mpi/coll/barrier.c:194`). -/

namespace FgMpi.Coll.FlatBarrier
open Function (update update_of_ne update_self)

def bump (f : Nat → Nat → Nat) (a b : Nat) : Nat → Nat → Nat :=
  fun x y => if x = a ∧ y = b then f x y + 1 else f x y

@[simp] theorem bump_same (f : Nat → Nat → Nat) (a b : Nat) : bump f a b a b = f a b + 1 :=
  if_pos ⟨rfl, rfl⟩

theorem bump_other (f : Nat → Nat → Nat) {a b x y : Nat} (h : ¬ (x = a ∧ y = b)) : bump f a b x y = f x y :=
  if_neg h

/-- `mask`: where each rank waits in `MPIC_Sendrecv`; `entered` and `left`: how many barriers it has
entered and left. -/
structure Group where
  mask : Nat → Option Nat := fun _ => none
  sent : Nat → Nat → Nat := fun _ _ => 0
  recvd : Nat → Nat → Nat := fun _ _ => 0
  entered : Nat → Nat := fun _ => 0
  left : Nat → Nat := fun _ => 0

def waiting (mask : Option Nat) : Nat := mask.elim 0 fun _ => 1

@[simp] theorem waiting_none : waiting none = 0 := rfl

@[simp] theorem waiting_some (mask : Nat) : waiting (some mask) = 1 := rfl

/-- The test of the loop, up to the receive of the next `MPIC_Sendrecv` or the end. -/
def loop (size rank mask : Nat) (g : Group) : Group :=
  if mask < size then
    { g with
      sent := bump g.sent rank ((rank + mask) % size)
      mask := update g.mask rank (some mask) }
  else
    { g with
      mask := update g.mask rank none
      left := update g.left rank (g.left rank + 1) }

def enter (size rank : Nat) (g : Group) : Group :=
  loop size rank 1 { g with entered := update g.entered rank (g.entered rank + 1) }

/-- The receive of a rank that waits; nothing happens as long as there is no message. -/
def receive (size rank : Nat) (g : Group) : Group :=
  match g.mask rank with
  | none => g
  | some mask =>
    let src := (rank + size - mask) % size
    if g.recvd src rank < g.sent src rank then
      loop size rank (2 * mask) { g with recvd := bump g.recvd src rank }
    else g

/-- `S` and `R` count the sends and the receives that each rank has made in its current barrier. -/
structure Core (size : Nat) (g : Group) (S R : Nat → Nat) : Prop where
  sent : ∀ r < size, ∀ j, 2 ^ j < size →
    g.sent r ((r + 2 ^ j) % size) = g.left r + if j < S r then 1 else 0
  recvd : ∀ r < size, ∀ j, 2 ^ j < size →
    g.recvd ((r + size - 2 ^ j) % size) r = g.left r + if j < R r then 1 else 0
  known : ∀ r < size, g.left r < g.entered r → ∀ d < 2 ^ R r, d < size →
    g.left r < g.entered ((r + size - d) % size)
  done : ∀ r < size, ∀ q < size, g.left r ≤ g.entered q
  inside : ∀ r < size, 0 < S r → g.left r < g.entered r
  order : ∀ r < size, S r ≤ R r + 1
  once : ∀ r < size, g.entered r ≤ g.left r + 1

section Ring
variable {size r : Nat}

theorem add_mod_inj {a b : Nat} (ha : a < size) (hb : b < size)
    (h : (r + a) % size = (r + b) % size) : a = b := by
  have hcancel : a ≡ b [MOD size] := Nat.ModEq.add_left_cancel' r h
  rwa [Nat.ModEq, Nat.mod_eq_of_lt ha, Nat.mod_eq_of_lt hb] at hcancel

theorem sub_mod_add {d : Nat} (hd : d < size) (hr : r < size) : ((r + size - d) % size + d) % size = r := by
  rw [Nat.mod_add_mod, Nat.sub_add_cancel (by omega), Nat.add_mod_right, Nat.mod_eq_of_lt hr]

theorem sub_mod_inj {a b : Nat} (ha : a < size) (hb : b < size) (hr : r < size)
    (h : (r + size - a) % size = (r + size - b) % size) : a = b := by
  have h1 := sub_mod_add ha hr
  have h2 := sub_mod_add hb hr
  rw [h] at h1
  exact add_mod_inj ha hb (h1.trans h2.symm)

theorem sub_sub_mod {a d : Nat} (ha : a < size) (hd : d < size) (hr : r < size) (hsum : a + d < size) :
    ((r + size - a) % size + size - d) % size = (r + size - (a + d)) % size := by
  have hsub : ((r + size - a) % size + size - d) % size + (a + d) ≡
      (r + size - (a + d)) % size + (a + d) [MOD size] := by
    have h1 : ((r + size - a) % size + size - d) % size + (a + d) =
        (((r + size - a) % size + size - d) % size + d) + a := by omega
    rw [h1]
    have h2 : (((r + size - a) % size + size - d) % size + d) % size = (r + size - a) % size :=
      sub_mod_add hd (Nat.mod_lt _ (by omega))
    calc (((r + size - a) % size + size - d) % size + d) + a
        ≡ (r + size - a) % size + a [MOD size] := by
          refine Nat.ModEq.add_right a ?_
          rw [Nat.ModEq, h2, Nat.mod_mod]
      _ ≡ r [MOD size] := by
          rw [Nat.ModEq, sub_mod_add ha hr, Nat.mod_eq_of_lt hr]
      _ ≡ (r + size - (a + d)) % size + (a + d) [MOD size] := by
          rw [Nat.ModEq, sub_mod_add hsum hr, Nat.mod_eq_of_lt hr]
  have hcancel := Nat.ModEq.add_right_cancel' (a + d) hsub
  rwa [Nat.ModEq, Nat.mod_mod, Nat.mod_mod] at hcancel

theorem exists_back {q : Nat} (hr : r < size) (hq : q < size) : ∃ d < size, (r + size - d) % size = q := by
  by_cases h : q ≤ r
  · refine ⟨r - q, by omega, ?_⟩
    have : r + size - (r - q) = q + size := by omega
    rw [this, Nat.add_mod_right, Nat.mod_eq_of_lt hq]
  · refine ⟨r + size - q, by omega, ?_⟩
    have : r + size - (r + size - q) = q := by omega
    rw [this, Nat.mod_eq_of_lt hq]

end Ring

section Steps
variable {size r : Nat} {g : Group} {S R : Nat → Nat}

section
variable (h : Core size g S R) (hr : r < size)
include h hr

section
variable (hinside : g.left r < g.entered r)
include hinside

theorem Core.send
    (hS : S r = R r) (hlt : 2 ^ R r < size) (m : Nat → Option Nat) :
    Core size { g with sent := bump g.sent r ((r + 2 ^ R r) % size), mask := m }
      (update S r (S r + 1)) R where
  sent q hq j hj := by
    by_cases hqr : q = r
    · subst hqr
      rw [update_self, hS]
      by_cases hjR : j = R q
      · subst hjR
        have := h.sent q hq (R q) hlt
        rw [hS, if_neg (Nat.lt_irrefl _)] at this
        change bump g.sent q ((q + 2 ^ R q) % size) q ((q + 2 ^ R q) % size) = _
        rw [bump_same, if_pos (Nat.lt_succ_self _), this]
      · change bump g.sent q ((q + 2 ^ R q) % size) q ((q + 2 ^ j) % size) = _
        have hne : ¬ (q = q ∧ (q + 2 ^ j) % size = (q + 2 ^ R q) % size) := by
          rintro ⟨-, heq⟩
          exact hjR (Nat.pow_right_injective (Nat.le_refl 2) (add_mod_inj hj hlt heq))
        rw [bump_other _ hne, h.sent q hq j hj, hS]
        congr 1
        split_ifs <;> first | rfl | omega
    · change bump g.sent r ((r + 2 ^ R r) % size) q ((q + 2 ^ j) % size) = _
      rw [bump_other _ (fun hand => hqr hand.1), update_of_ne hqr]
      exact h.sent q hq j hj
  recvd := h.recvd
  known := h.known
  done := h.done
  inside q hq hpos := by
    by_cases hqr : q = r
    · rw [hqr]
      exact hinside
    · rw [update_of_ne hqr] at hpos
      exact h.inside q hq hpos
  order q hq := by
    by_cases hqr : q = r
    · rw [hqr, update_self, hS]
    · rw [update_of_ne hqr]
      exact h.order q hq
  once := h.once

theorem Core.all (hle : size ≤ 2 ^ R r) {q : Nat} (hq : q < size) : g.left r < g.entered q := by
  obtain ⟨d, hd, heq⟩ := exists_back hr hq
  rw [← heq]
  exact h.known r hr hinside d (by omega) hd

theorem Core.leave
    (hS : S r = R r) (hle : size ≤ 2 ^ R r) (m : Nat → Option Nat) :
    Core size { g with mask := m, left := update g.left r (g.left r + 1) }
      (update S r 0) (update R r 0) := by
  have hmask : ∀ j, 2 ^ j < size → j < R r := by
    intro j hj
    exact (Nat.pow_lt_pow_iff_right (by decide)).mp (Nat.lt_of_lt_of_le hj hle)
  refine ⟨?_, ?_, ?_, ?_, ?_, ?_, ?_⟩
  · intro q hq j hj
    dsimp only
    have hsent := h.sent q hq j hj
    by_cases hqr : q = r
    · subst hqr
      rw [hS, if_pos (hmask j hj)] at hsent
      rw [update_self, update_self, if_neg (Nat.not_lt_zero j)]
      exact hsent
    · rw [update_of_ne hqr, update_of_ne hqr]
      exact hsent
  · intro q hq j hj
    dsimp only
    have hrecvd := h.recvd q hq j hj
    by_cases hqr : q = r
    · subst hqr
      rw [if_pos (hmask j hj)] at hrecvd
      rw [update_self, update_self, if_neg (Nat.not_lt_zero j)]
      exact hrecvd
    · rw [update_of_ne hqr, update_of_ne hqr]
      exact hrecvd
  · intro q hq hlt d hd hds
    dsimp only at hlt ⊢
    by_cases hqr : q = r
    · subst hqr
      have honce := h.once q hq
      rw [update_self] at hlt
      exact absurd hlt (by omega)
    · rw [update_of_ne hqr] at hlt hd ⊢
      exact h.known q hq hlt d hd hds
  · intro q hq p hp
    dsimp only
    by_cases hqr : q = r
    · rw [hqr, update_self]
      exact h.all hr hinside hle hp
    · rw [update_of_ne hqr]
      exact h.done q hq p hp
  · intro q hq hpos
    dsimp only
    by_cases hqr : q = r
    · rw [hqr, update_self] at hpos
      exact absurd hpos (Nat.lt_irrefl 0)
    · rw [update_of_ne hqr] at hpos
      rw [update_of_ne hqr]
      exact h.inside q hq hpos
  · intro q hq
    by_cases hqr : q = r
    · rw [hqr, update_self]
      exact Nat.zero_le _
    · rw [update_of_ne hqr, update_of_ne hqr]
      exact h.order q hq
  · intro q hq
    have honce := h.once q hq
    dsimp only
    by_cases hqr : q = r
    · subst hqr
      rw [update_self]
      omega
    · rw [update_of_ne hqr]
      exact honce

end

theorem Core.start (hout : g.entered r = g.left r) (hR : R r = 0) :
    Core size { g with entered := update g.entered r (g.entered r + 1) } S R := by
  have hup : ∀ q, g.entered q ≤ update g.entered r (g.entered r + 1) q := by
    intro q
    by_cases hqr : q = r
    · rw [hqr, update_self]
      exact Nat.le_succ _
    · rw [update_of_ne hqr]
  refine ⟨h.sent, h.recvd, ?_, ?_, ?_, h.order, ?_⟩
  · intro q hq hlt d hd hds
    dsimp only at hlt ⊢
    by_cases hqr : q = r
    · subst hqr
      rw [hR, Nat.pow_zero] at hd
      have hzero : d = 0 := by omega
      rw [hzero, Nat.sub_zero, Nat.add_mod_right, Nat.mod_eq_of_lt hq]
      exact hlt
    · rw [update_of_ne hqr] at hlt
      exact Nat.lt_of_lt_of_le (h.known q hq hlt d hd hds) (hup _)
  · intro q hq p hp
    exact (h.done q hq p hp).trans (hup p)
  · intro q hq hpos
    exact Nat.lt_of_lt_of_le (h.inside q hq hpos) (hup q)
  · intro q hq
    have honce := h.once q hq
    dsimp only
    by_cases hqr : q = r
    · rw [hqr, update_self]
      omega
    · rw [update_of_ne hqr]
      exact honce

theorem Core.recv (hinside : g.left r < g.entered r) (hS : S r = R r + 1) (hlt : 2 ^ R r < size)
    (hmsg : g.recvd ((r + size - 2 ^ R r) % size) r < g.sent ((r + size - 2 ^ R r) % size) r) :
    Core size { g with recvd := bump g.recvd ((r + size - 2 ^ R r) % size) r } S
      (update R r (R r + 1)) := by
  have hsrc : (r + size - 2 ^ R r) % size < size := Nat.mod_lt _ (by omega)
  have hcount := h.recvd r hr (R r) hlt
  rw [if_neg (Nat.lt_irrefl _)] at hcount
  have hsent := h.sent _ hsrc (R r) hlt
  rw [sub_mod_add hlt hr] at hsent
  refine ⟨h.sent, ?_, ?_, h.done, h.inside, ?_, h.once⟩
  · intro q hq j hj
    dsimp only
    by_cases hqr : q = r
    · subst hqr
      rw [update_self]
      by_cases hjR : j = R q
      · rw [hjR, bump_same, if_pos (Nat.lt_succ_self _), hcount]
      · have hne : ¬ ((q + size - 2 ^ j) % size = (q + size - 2 ^ R q) % size ∧ q = q) := by
          rintro ⟨heq, -⟩
          exact hjR (Nat.pow_right_injective (Nat.le_refl 2) (sub_mod_inj hj hlt hq heq))
        rw [bump_other _ hne, h.recvd q hq j hj]
        congr 1
        split_ifs <;> first | rfl | omega
    · rw [bump_other _ (fun hand => hqr hand.2), update_of_ne hqr]
      exact h.recvd q hq j hj
  · intro q hq hq' d hd hds
    dsimp only at hq' ⊢
    by_cases hqr : q = r
    · subst hqr
      rw [update_self, Nat.pow_succ] at hd
      by_cases hfirst : d < 2 ^ R q
      · exact h.known q hq hinside d hfirst hds
      · -- the ranks that the sender vouches for
        have hback := sub_sub_mod (d := d - 2 ^ R q) hlt (by omega) hq (by omega)
        rw [show 2 ^ R q + (d - 2 ^ R q) = d by omega] at hback
        rw [← hback]
        by_cases hleft : g.left q < g.left ((q + size - 2 ^ R q) % size)
        · exact Nat.lt_of_lt_of_le hleft (h.done _ hsrc _ (Nat.mod_lt _ (by omega)))
        · have hS' : R q < S ((q + size - 2 ^ R q) % size) := by
            by_contra hnot
            rw [if_neg hnot] at hsent
            omega
          have horder := h.order _ hsrc
          have hin := h.inside _ hsrc (by omega)
          have hpow : 2 ^ R q ≤ 2 ^ R ((q + size - 2 ^ R q) % size) :=
            Nat.pow_le_pow_right (by decide) (by omega)
          have hknown := h.known _ hsrc hin (d - 2 ^ R q) (by omega) (by omega)
          rw [if_pos hS'] at hsent
          omega
    · rw [update_of_ne hqr] at hd
      exact h.known q hq hq' d hd hds
  · intro q hq
    have horder := h.order q hq
    by_cases hqr : q = r
    · rw [hqr, update_self, hS]
      omega
    · rw [update_of_ne hqr]
      exact horder

end

end Steps

def At (size : Nat) (g : Group) (S R : Nat → Nat) (r : Nat) : Prop :=
  match g.mask r with
  | none => g.entered r = g.left r ∧ S r = 0 ∧ R r = 0
  | some mask => mask = 2 ^ R r ∧ S r = R r + 1 ∧ mask < size ∧ g.left r < g.entered r

def Inv (size : Nat) (g : Group) : Prop := ∃ S R, Core size g S R ∧ ∀ r < size, At size g S R r

theorem init_inv (size : Nat) : Inv size {} := by
  refine ⟨fun _ => 0, fun _ => 0, ?_, fun _ _ => ⟨rfl, rfl, rfl⟩⟩
  exact ⟨fun _ _ _ _ => rfl, fun _ _ _ _ => rfl, fun _ _ h => absurd h (Nat.lt_irrefl 0),
    fun _ _ _ _ => Nat.le_refl 0, fun _ _ h => absurd h (Nat.lt_irrefl 0), fun _ _ => Nat.zero_le _,
    fun _ _ => Nat.zero_le _⟩

section Runs
variable {size r : Nat} {g : Group}

theorem Inv.left_le (h : Inv size g) (hr : r < size) {q : Nat} (hq : q < size) : g.left r ≤ g.entered q := by
  obtain ⟨S, R, hcore, -⟩ := h
  exact hcore.done r hr q hq

theorem Inv.entered_eq (h : Inv size g) (hr : r < size) : g.entered r = g.left r + waiting (g.mask r) := by
  obtain ⟨S, R, hcore, hat⟩ := h
  have hr' := hat r hr
  have honce := hcore.once r hr
  unfold At at hr'
  cases hmask : g.mask r with
  | none =>
    rw [hmask] at hr'
    exact hr'.1
  | some mask =>
    rw [hmask] at hr'
    have hlt := hr'.2.2.2
    rw [waiting_some]
    omega

theorem loop_inv {S R : Nat → Nat} (h : Core size g S R) (hr : r < size)
    (hothers : ∀ q < size, q ≠ r → At size g S R q) (hinside : g.left r < g.entered r)
    (hS : S r = R r) : Inv size (loop size r (2 ^ R r) g) := by
  unfold loop
  split
  · rename_i hlt
    refine ⟨update S r (S r + 1), R, h.send hr hinside hS hlt _, ?_⟩
    intro q hq
    unfold At
    by_cases hqr : q = r
    · subst hqr
      dsimp only
      rw [update_self, update_self]
      exact ⟨rfl, by rw [hS], hlt, hinside⟩
    · have hq' := hothers q hq hqr
      unfold At at hq'
      dsimp only
      rw [update_of_ne hqr, update_of_ne hqr]
      exact hq'
  · rename_i hge
    refine ⟨update S r 0, update R r 0,
      h.leave hr hinside hS (Nat.le_of_not_lt hge) _, ?_⟩
    intro q hq
    unfold At
    by_cases hqr : q = r
    · subst hqr
      have honce := h.once q hq
      dsimp only
      rw [update_self, update_self, update_self, update_self]
      exact ⟨by omega, rfl, rfl⟩
    · have hq' := hothers q hq hqr
      unfold At at hq'
      dsimp only
      rw [update_of_ne hqr, update_of_ne hqr, update_of_ne hqr,
        update_of_ne hqr]
      exact hq'

theorem enter_inv (h : Inv size g) (hr : r < size) (hout : g.mask r = none) : Inv size (enter size r g) := by
  obtain ⟨S, R, hcore, hat⟩ := h
  have hr' := hat r hr
  unfold At at hr'
  rw [hout] at hr'
  obtain ⟨heq, hS, hR⟩ := hr'
  have hstart := hcore.start hr heq hR
  have hothers : ∀ q < size, q ≠ r →
      At size { g with entered := update g.entered r (g.entered r + 1) } S R q := by
    intro q hq hqr
    have hq' := hat q hq
    unfold At at hq' ⊢
    dsimp only
    rw [update_of_ne hqr]
    exact hq'
  have hloop := loop_inv hstart hr hothers
    (by dsimp only; rw [update_self]; omega) (hS.trans hR.symm)
  rw [hR, Nat.pow_zero] at hloop
  exact hloop

theorem receive_inv (h : Inv size g) (hr : r < size) : Inv size (receive size r g) := by
  unfold receive
  cases hmask : g.mask r with
  | none => exact h
  | some mask =>
    dsimp only
    split
    · rename_i hmsg
      obtain ⟨S, R, hcore, hat⟩ := h
      have hr' := hat r hr
      unfold At at hr'
      rw [hmask] at hr'
      obtain ⟨rfl, hS, hlt, hinside⟩ := hr'
      have hothers : ∀ q < size, q ≠ r →
          At size { g with recvd := bump g.recvd ((r + size - 2 ^ R r) % size) r } S
            (update R r (R r + 1)) q := by
        intro q hq hqr
        have hq' := hat q hq
        unfold At at hq' ⊢
        dsimp only
        rw [update_of_ne hqr]
        exact hq'
      have hloop := loop_inv (hcore.recv hr hinside hS hlt hmsg) hr hothers hinside
        (by rw [update_self]; exact hS)
      rw [update_self, Nat.pow_succ, Nat.mul_comm] at hloop
      exact hloop
    · exact h

end Runs

structure Moved (r : Nat) (g g' : Group) : Prop where
  mask : ∀ q, q ≠ r → g'.mask q = g.mask q
  left : ∀ q, q ≠ r → g'.left q = g.left q
  own : (g'.mask r = none ∧ g'.left r = g.left r + 1) ∨ (g'.mask r ≠ none ∧ g'.left r = g.left r)

theorem loop_moved (size r mask : Nat) (g : Group) : Moved r g (loop size r mask g) := by
  unfold loop
  split
  · refine ⟨fun q hq => update_of_ne hq .., fun _ _ => rfl, .inr ⟨?_, rfl⟩⟩
    dsimp only
    rw [update_self]
    exact Option.some_ne_none _
  · exact ⟨fun q hq => update_of_ne hq .., fun q hq => update_of_ne hq ..,
      .inl ⟨update_self .., update_self ..⟩⟩

theorem loop_entered (size r mask : Nat) (g : Group) : (loop size r mask g).entered = g.entered := by
  unfold loop
  split <;> rfl

theorem enter_moved (size r : Nat) (g : Group) : Moved r g (enter size r g) := by
  have h := loop_moved size r 1 { g with entered := update g.entered r (g.entered r + 1) }
  exact ⟨h.mask, h.left, h.own⟩

theorem enter_entered (size r : Nat) (g : Group) :
    (enter size r g).entered = update g.entered r (g.entered r + 1) :=
  loop_entered ..

theorem receive_moved (size : Nat) {r : Nat} {g : Group} (hwaits : g.mask r ≠ none) :
    Moved r g (receive size r g) := by
  unfold receive
  cases hmask : g.mask r with
  | none => exact absurd hmask hwaits
  | some mask =>
    dsimp only
    split
    · have h := loop_moved size r (2 * mask)
        { g with recvd := bump g.recvd ((r + size - mask) % size) r }
      exact ⟨h.mask, h.left, h.own⟩
    · exact ⟨fun _ _ => rfl, fun _ _ => rfl, .inr ⟨hwaits, rfl⟩⟩

theorem receive_entered (size r : Nat) (g : Group) : (receive size r g).entered = g.entered := by
  unfold receive
  split
  · rfl
  · dsimp only
    split
    · exact loop_entered ..
    · rfl

end FgMpi.Coll.FlatBarrier
